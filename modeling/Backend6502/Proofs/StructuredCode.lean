import Backend6502.Proofs.StoredRuns

/-!
# Code of structured statements

The code of a statement does what the statement means: it goes on behind itself, or to the label of
the loop around it that the statement leaves or goes on with. A loop is run round by round; what one
round does is said once, and the number of rounds is the induction.
-/

namespace Backend6502.Lowering

open Code (Steps)
open Source (Expr Stmt Store Outcome Loc)
open Symbols (Table)

/-- The context between two statements. -/
structure Idle (L : Listing) (c : Context) : Prop extends Ready L c where
  low : c.high = false

theorem Idle.after {L : Listing} {c d : Context} {own : List String} (idle : Idle L c)
    (lays : Lays own c d) : Idle L d :=
  ⟨idle.toReady.after lays, lays.high.trans idle.low⟩

theorem Idle.of_eq {L : Listing} {c d : Context} (idle : Idle L c) (code : d.code = c.code)
    (acc : d.accInUse = c.accInUse) (deferred : d.deferred = c.deferred) (high : d.high = c.high) :
    Idle L d :=
  ⟨idle.toReady.of_eq code acc deferred, high.trans idle.low⟩

/-- Code that always goes on, and changes the store. -/
structure Moved (S : Setting) (L : Listing) (change : Store → Store) (c d : Context) : Prop where
  lays : Lays [] c d
  goes : L.Holds d → ∀ σ, Goes S L c σ d (change σ)

/-- A run ends as a statement does, with these exits of the loop around it. -/
def Ends (S : Setting) (L : Listing) (around : Option Exits) (c : Context) (σ : Store)
    (d : Context) : Outcome → Store → Prop
  | .past, σ' => Goes S L c σ d σ'
  | .leave, σ' => ∀ exits, around = some exits → Jumps S L c σ exits.leave σ'
  | .next, σ' => ∀ exits label, around = some exits → exits.next = some label →
    Jumps S L c σ label σ'

/-- The code of a statement does what the statement means. -/
structure Performs (S : Setting) (L : Listing) (around : Option Exits)
    (run : Store → Option (Outcome × Store)) (c d : Context) : Prop where
  lays : Lays [] c d
  ends : L.Holds d → ∀ {σ σ' outcome}, run σ = some (outcome, σ') →
    Ends S L around c σ d outcome σ'

/-- Wherever the code of a step is placed, it does what is meant. -/
def Means (S : Setting) (L : Listing) (m : Gen Unit) (run : Store → Option (Outcome × Store)) :
    Prop :=
  ∀ {c d : Context}, Idle L c → m S.scope c = .ok () d → Performs S L c.exits.head? run c d

/-- A statement that ends in this way goes to the label. -/
def LeadsTo (around : Option Exits) (label : String) : Outcome → Prop
  | .past => False
  | .leave => ∀ exits, around = some exits → exits.leave = label
  | .next => around.bind (·.next) = some label

/-- The places of a loop: its body, the place between two rounds, and the place behind it. -/
structure Circles (S : Setting) (L : Listing) (cond update : Expr)
    (run : Store → Option (Outcome × Store)) (body between stop : Context) : Prop where
  past : ∀ σ σ', run σ = some (.past, σ') → Goes S L body σ between σ'
  next : ∀ σ σ', run σ = some (.next, σ') → Goes S L body σ between σ'
  leave : ∀ σ σ', run σ = some (.leave, σ') → Goes S L body σ stop σ'
  again : ∀ σ, cond.goesOn S.table (update.perform S.table σ) = true →
    Goes S L between σ body (update.perform S.table σ)
  ends : ∀ σ, cond.goesOn S.table (update.perform S.table σ) = false →
    Goes S L between σ stop (update.perform S.table σ)

section Ending

variable {S : Setting} {L : Listing} {around : Option Exits} {c d e : Context}
  {σ σ₁ σ' : Store} {outcome : Outcome}

/-- A run may go somewhere before it ends. -/
theorem Goes.ends (first : Goes S L c σ e σ₁) (ends : Ends S L around e σ₁ d outcome σ') :
    Ends S L around c σ d outcome σ' := by
  cases outcome with
  | past => exact first.trans ends
  | leave => exact fun exits same => first.jumps (ends exits same)
  | next => exact fun exits label same next => first.jumps (ends exits label same next)

theorem Ends.onward (ends : Ends S L around c σ e outcome σ')
    (rest : outcome = .past → Goes S L e σ' d σ') : Ends S L around c σ d outcome σ' := by
  cases outcome with
  | past => exact Goes.trans ends (rest rfl)
  | leave | next => exact ends

theorem Jumps.ends {label : String} (leads : LeadsTo around label outcome)
    (jumps : Jumps S L c σ label σ') : Ends S L around c σ d outcome σ' := by
  cases outcome with
  | past => exact leads.elim
  | leave =>
    intro exits same
    rw [leads exits same]
    exact jumps
  | next =>
    intro exits other same next
    rw [LeadsTo, same, Option.bind_some, next] at leads
    cases leads
    exact jumps

end Ending

section Loops

variable {S : Setting} {L : Listing} {cond update : Expr} {run : Store → Option (Outcome × Store)}
  {body between stop : Context}

/-- A loop that ends is run to the place behind it. -/
theorem Circles.rounds (circles : Circles S L cond update run body between stop) (fuel : Nat) :
    ∀ {σ σ' : Store} {outcome : Outcome},
      Source.rounds S.table cond update run fuel σ = some (outcome, σ') →
        outcome = .past ∧ Goes S L body σ stop σ' := by
  induction fuel with
  | zero => exact nofun
  | succ fuel ih =>
    intro σ σ' outcome ran
    have onward (σ₁ : Store) (goes : Goes S L body σ between σ₁)
        (rest : (if cond.goesOn S.table (update.perform S.table σ₁) = true then
          Source.rounds S.table cond update run fuel (update.perform S.table σ₁)
          else some (.past, update.perform S.table σ₁)) = some (outcome, σ')) :
        outcome = .past ∧ Goes S L body σ stop σ' := by
      split at rest
      · next holds =>
        obtain ⟨isPast, further⟩ := ih rest
        exact ⟨isPast, (goes.trans (circles.again σ₁ holds)).trans further⟩
      · next fails =>
        cases rest
        exact ⟨rfl, goes.trans (circles.ends σ₁ (eq_false_of_ne_true fails))⟩
    rw [Source.rounds] at ran
    cases round : run σ with
    | none =>
      rw [round] at ran
      cases ran
    | some ended =>
      obtain ⟨how, σ₁⟩ := ended
      rw [round] at ran
      cases how with
      | past => exact onward σ₁ (circles.past σ σ₁ round) ran
      | next => exact onward σ₁ (circles.next σ σ₁ round) ran
      | leave =>
        cases ran
        exact ⟨rfl, circles.leave σ _ round⟩

end Loops

section Steps

variable {S : Setting} {L : Listing} {scope : Scope} {c d : Context} {u : Unit}

theorem moved_exprStmt {e : Expr} (isStep : e.isByteStep S.table = true) (idle : Idle L c)
    (ok : exprStmt e S.scope c = .ok u d) : Moved S L (fun σ => e.perform S.table σ) c d := by
  obtain ⟨g, changed, ⟨code, added⟩, steps⟩ :=
    (emits_exprStmt isStep idle.low idle.free idle.none).steps (L := L) ok
  exact ⟨.straight added changed.kept changed.acc,
    fun laid σ s sound => ⟨g s, steps laid s, changed.sound σ s sound⟩⟩

theorem moved_forInit {init : Expr} (isStep : init.isByteStep S.table = true) (idle : Idle L c)
    (ok : forInit init S.scope c = .ok u d) : Moved S L (fun σ => init.perform S.table σ) c d := by
  unfold forInit at ok
  split at ok
  · exact moved_exprStmt isStep idle ok
  · next absent =>
    cases ok
    cases init with
    | absent => exact ⟨.nothing c, fun _ σ => .refl c σ⟩
    | _ => exact absurd rfl absent

/-- A condition that is left out holds, and needs no test. -/
theorem tested_goesOn {cond : Expr} {label : String} (negate : Bool) {m : Gen Unit}
    (fine : (isOmitted cond || cond.isCondition S.table) = true) (ready : Ready L c)
    (omitted : isOmitted cond = true → m = if !negate then emitJump label else pure ())
    (given : isOmitted cond = false → m = (lower cond).test label negate)
    (ok : m S.scope c = .ok u d) :
    Tested S L label (fun σ => cond.goesOn S.table σ != negate) c d := by
  unfold Expr.goesOn
  cases left : isOmitted cond with
  | true =>
    rw [omitted left] at ok
    simpa using tested_known ok
  | false =>
    rw [left] at fine
    rw [given left] at ok
    exact tested_lower fine ready ok

theorem withExits_eq_ok {exits : Exits} {step : Gen Unit}
    (ok : withExits exits step scope c = .ok u d) :
    ∃ e, step scope { c with exits := exits :: c.exits } = .ok () e ∧
      d = { e with exits := c.exits } := by
  obtain ⟨_, _, ⟨⟩, ok⟩ := bind_inv ok
  obtain ⟨_, _, ⟨⟩, ok⟩ := bind_inv ok
  obtain ⟨_, e, run, ok⟩ := bind_inv ok
  cases ok
  exact ⟨e, run, rfl⟩

theorem Performs.goes {around : Option Exits} {run : Store → Option (Outcome × Store)}
    {σ σ' : Store} (performs : Performs S L around run c d) (laid : L.Holds d)
    (ran : run σ = some (.past, σ')) : Goes S L c σ d σ' :=
  performs.ends laid ran

/-- A statement without a label does what the code behind its start does. -/
theorem performs_enter {loc : Loc} {run : Store → Option (Outcome × Store)} {rest : Unit → Gen Unit}
    (plain : loc.label.isEmpty = true) (means : Means S L (rest ()) run) :
    Means S L (enter loc >>= rest) run := by
  intro c d idle ok
  obtain ⟨_, _, enters, ok⟩ := bind_inv ok
  obtain ⟨_, _, ⟨⟩, enters⟩ := bind_inv enters
  rw [plain] at enters
  cases enters
  have performs := means (c := { c with pos := loc.pos }) (idle.of_eq rfl rfl rfl rfl) ok
  have lays := performs.lays
  exact ⟨⟨lays.toLabelled.congr ⟨rfl, rfl, rfl, rfl⟩ ⟨rfl, rfl, rfl, rfl⟩, lays.high, lays.acc,
    lays.exits, lays.deferred⟩, performs.ends⟩

end Steps

section Constructs

variable {S : Setting} {L : Listing} {around : Option Exits} {c d : Context} {u : Unit}
  {cond update : Expr} {fuel : Nat} {run : Store → Option (Outcome × Store)} {body : Gen Unit}

/-- A label that has been placed is gone past, and jumps land behind it. -/
structure Placed (S : Setting) (L : Listing) (name : String) (c d : Context) : Prop where
  lays : Lays [name] c d
  past : L.Holds d → ∀ σ, Goes S L c σ d σ
  lands : L.Holds d → ∀ {e σ σ'}, Jumps S L e σ name σ' → Goes S L e σ d σ'

theorem placed_putLabel {name : String} {scope : Scope} (idle : Idle L c)
    (ok : putLabel name scope c = .ok u d) : Placed S L name c d := by
  cases putLabel_eq_ok ok
  exact ⟨.label c name, fun laid σ => .pastLabel laid σ, fun laid _ _ _ jumps =>
    jumps.lands idle.fresh laid⟩

theorem tested_emitJump {name : String} {scope : Scope} (ok : emitJump name scope c = .ok u d) :
    Tested S L name (fun _ => true) c d :=
  tested_known (b := true) ok

/-- A loop whose condition is tested before the first round. -/
theorem Circles.loop {inside between stop enter : Context}
    (circles : Circles S L cond update run inside between stop)
    (first : ∀ σ, cond.goesOn S.table σ = true → Goes S L enter σ inside σ)
    (skips : ∀ σ, cond.goesOn S.table σ = false → Goes S L enter σ stop σ)
    {σ σ' : Store} {outcome : Outcome}
    (ran : Source.loop S.table fuel cond update run σ = some (outcome, σ')) :
    outcome = .past ∧ Goes S L enter σ stop σ' := by
  unfold Source.loop at ran
  split at ran
  · next holds =>
    obtain ⟨isPast, goes⟩ := circles.rounds fuel ran
    exact ⟨isPast, (first σ holds).trans goes⟩
  · next fails =>
    cases ran
    exact ⟨rfl, skips σ (eq_false_of_ne_true fails)⟩

theorem goesOn_of_isCondition {table : Table} (isCondition : cond.isCondition table = true)
    (σ : Store) : cond.goesOn table σ = cond.holds table σ := by
  have given : isOmitted cond = false := by
    cases cond <;> first | rfl | cases isCondition
  rw [Expr.goesOn, given, Bool.false_or]

theorem performs_withExits {exits : Exits}
    (bodies : Means S L body run) (idle : Idle L c)
    (ok : withExits exits body S.scope c = .ok u d) :
    Performs S L (some exits) run c d := by
  obtain ⟨e, runs, rfl⟩ := withExits_eq_ok ok
  have performs := bodies (c := { c with exits := exits :: c.exits })
    (idle.of_eq rfl rfl rfl rfl) runs
  have lays := performs.lays
  exact ⟨⟨lays.toLabelled.congr ⟨rfl, rfl, rfl, rfl⟩ ⟨rfl, rfl, rfl, rfl⟩, lays.high, lays.acc, rfl,
    lays.deferred⟩, performs.ends⟩

section

variable (isCondition : cond.isCondition S.table = true)
  (bodies : Means S L body run)
  (idle : Idle L c)

include isCondition bodies idle

theorem performs_whileLoop (ok : whileLoop (lower cond) body S.scope c = .ok u d) :
    Performs S L around (Source.loop S.table fuel cond .absent run) c d := by
  obtain ⟨n, _, counts, ok⟩ := bind_inv ok
  obtain ⟨rfl, rfl⟩ := nextWhile_eq_ok counts
  obtain ⟨_, begins, places, ok⟩ := bind_inv ok
  obtain ⟨_, inside, tests, ok⟩ := bind_inv ok
  obtain ⟨_, ended, runs, ok⟩ := bind_inv ok
  obtain ⟨_, turned, jumps, ok⟩ := bind_inv ok
  have counted : Idle L c.countWhile := idle.of_eq rfl rfl rfl rfl
  have start : Placed S L _ c.countWhile begins := placed_putLabel counted places
  have idleStart := counted.after start.lays
  have test : Tested S L _ _ begins inside := tested_lower isCondition idleStart.toReady tests
  have idleInside := idleStart.after test.lays
  have performs := performs_withExits bodies idleInside runs
  have idleEnded := idleInside.after performs.lays
  have back : Tested S L _ _ ended turned := tested_emitJump jumps
  have stop : Placed S L _ turned d := placed_putLabel (idleEnded.after back.lays) ok
  have lays := (((start.lays.trans test.lays).trans performs.lays).trans back.lays).trans stop.lays
  refine ⟨.openedWhile [.whileStart _, .whileEnd _] (by simp)
    (by simp [Label.Within, Context.countWhile]) lays, fun laid σ σ' outcome ran => ?_⟩
  have laidTurned := stop.lays.holds laid
  have laidEnded := back.lays.holds laidTurned
  have laidInside := performs.lays.holds laidEnded
  have laidStart := test.lays.holds laidInside
  have goesIn (σ : Store) (holds : cond.goesOn S.table σ = true) : Goes S L begins σ inside σ := by
    rw [goesOn_of_isCondition isCondition] at holds
    exact test.passed laidInside σ (by rw [holds]; rfl)
  have goesOut (σ : Store) (fails : cond.goesOn S.table σ = false) : Goes S L begins σ d σ := by
    rw [goesOn_of_isCondition isCondition] at fails
    exact stop.lands laid (test.taken laidInside σ (by rw [fails]; rfl))
  have circles : Circles S L cond .absent run inside begins d := {
    past := fun σ σ' ran => start.lands laidStart
      ((performs.goes laidEnded ran).jumps (back.taken laidTurned σ' rfl))
    next := fun σ σ' ran => start.lands laidStart (performs.ends laidEnded ran _ _ rfl rfl)
    leave := fun σ σ' ran => stop.lands laid (performs.ends laidEnded ran _ rfl)
    again := goesIn
    ends := goesOut }
  obtain ⟨rfl, goes⟩ := circles.loop goesIn goesOut ran
  exact (start.past laidStart σ).trans goes

theorem performs_doWhile (ok : doWhile body (lower cond) S.scope c = .ok u d) :
    Performs S L around (Source.rounds S.table cond .absent run fuel) c d := by
  obtain ⟨n, _, counts, ok⟩ := bind_inv ok
  obtain ⟨rfl, rfl⟩ := nextWhile_eq_ok counts
  obtain ⟨_, inside, places, ok⟩ := bind_inv ok
  obtain ⟨_, ended, runs, ok⟩ := bind_inv ok
  obtain ⟨_, between, asks, ok⟩ := bind_inv ok
  obtain ⟨_, turned, tests, ok⟩ := bind_inv ok
  have counted : Idle L c.countWhile := idle.of_eq rfl rfl rfl rfl
  have start : Placed S L _ c.countWhile inside := placed_putLabel counted places
  have idleInside := counted.after start.lays
  have performs := performs_withExits bodies idleInside runs
  have idleEnded := idleInside.after performs.lays
  have middle : Placed S L _ ended between := placed_putLabel idleEnded asks
  have idleBetween := idleEnded.after middle.lays
  have test : Tested S L _ _ between turned := tested_lower isCondition idleBetween.toReady tests
  have stop : Placed S L _ turned d := placed_putLabel (idleBetween.after test.lays) ok
  have lays := (((start.lays.trans performs.lays).trans middle.lays).trans test.lays).trans
    stop.lays
  refine ⟨.openedWhile [.doStart _, .doCond _, .doEnd _] (by simp)
    (by simp [Label.Within, Context.countWhile]) lays, fun laid σ σ' outcome ran => ?_⟩
  have laidTurned := stop.lays.holds laid
  have laidBetween := test.lays.holds laidTurned
  have laidEnded := middle.lays.holds laidBetween
  have laidInside := performs.lays.holds laidEnded
  have asked (σ : Store) : cond.goesOn S.table σ = (cond.holds S.table σ != false) := by
    rw [goesOn_of_isCondition isCondition, Bool.bne_false]
  have circles : Circles S L cond .absent run inside between d := {
    past := fun σ σ' ran => (performs.goes laidEnded ran).trans (middle.past laidBetween σ')
    next := fun σ σ' ran => middle.lands laidBetween (performs.ends laidEnded ran _ _ rfl rfl)
    leave := fun σ σ' ran => stop.lands laid (performs.ends laidEnded ran _ rfl)
    again := fun σ holds => start.lands laidInside (test.taken laidTurned σ (asked σ ▸ holds))
    ends := fun σ fails =>
      (test.passed laidTurned σ (asked σ ▸ fails)).trans (stop.past laid σ) }
  obtain ⟨rfl, goes⟩ := circles.rounds fuel ran
  exact (start.past laidInside σ).trans goes

end

theorem performs_forLoop {init : Expr} (isInit : init.isByteStep S.table = true)
    (isCondition : (isOmitted cond || cond.isCondition S.table) = true)
    (isUpdate : update.isByteStep S.table = true) (bodies : Means S L body run) (idle : Idle L c)
    (ok : forLoop init cond update body S.scope c = .ok u d) :
    Performs S L around
      (fun σ => Source.loop S.table fuel cond update run (init.perform S.table σ)) c d := by
  obtain ⟨_, first, inits, ok⟩ := bind_inv ok
  obtain ⟨n, _, counts, ok⟩ := bind_inv ok
  obtain ⟨rfl, rfl⟩ := nextFor_eq_ok counts
  obtain ⟨_, entered, enters, ok⟩ := bind_inv ok
  obtain ⟨_, inside, places, ok⟩ := bind_inv ok
  obtain ⟨_, ended, runs, ok⟩ := bind_inv ok
  obtain ⟨_, between, asks, ok⟩ := bind_inv ok
  obtain ⟨_, updated, updates, ok⟩ := bind_inv ok
  obtain ⟨_, turned, tests, ok⟩ := bind_inv ok
  have begins : Moved S L _ c first := moved_forInit isInit idle inits
  have idleFirst := idle.after begins.lays
  have counted : Idle L first.countFor := idleFirst.of_eq rfl rfl rfl rfl
  have entry : Tested S L _ _ first.countFor entered := tested_goesOn true isCondition
    counted.toReady (fun omitted => by rw [forFirst, omitted]; rfl)
    (fun given => by rw [forFirst, given]; rfl) enters
  have idleEntered := counted.after entry.lays
  have start : Placed S L _ entered inside := placed_putLabel idleEntered places
  have idleInside := idleEntered.after start.lays
  have performs := performs_withExits bodies idleInside runs
  have idleEnded := idleInside.after performs.lays
  have middle : Placed S L _ ended between := placed_putLabel idleEnded asks
  have idleBetween := idleEnded.after middle.lays
  have step : Moved S L _ between updated := moved_exprStmt isUpdate idleBetween updates
  have idleUpdated := idleBetween.after step.lays
  have test : Tested S L _ _ updated turned := tested_goesOn false isCondition
    idleUpdated.toReady (fun omitted => by rw [forAgain, omitted]; rfl)
    (fun given => by rw [forAgain, given]; rfl) tests
  have stop : Placed S L _ turned d := placed_putLabel (idleUpdated.after test.lays) ok
  have lays := (((((entry.lays.trans start.lays).trans performs.lays).trans middle.lays).trans
    step.lays).trans test.lays).trans stop.lays
  have whole : Lays [] first d := .openedFor [.forStart _, .forUpdate _, .forEnd _] (by simp)
    (by simp [Label.Within, Context.countFor]) lays
  refine ⟨begins.lays.trans whole, fun laid σ σ' outcome ran => ?_⟩
  have laidTurned := stop.lays.holds laid
  have laidUpdated := test.lays.holds laidTurned
  have laidBetween := step.lays.holds laidUpdated
  have laidEnded := middle.lays.holds laidBetween
  have laidInside := performs.lays.holds laidEnded
  have laidEntered := start.lays.holds laidInside
  have circles : Circles S L cond update run inside between d := {
    past := fun σ σ' ran => (performs.goes laidEnded ran).trans (middle.past laidBetween σ')
    next := fun σ σ' ran => middle.lands laidBetween (performs.ends laidEnded ran _ _ rfl rfl)
    leave := fun σ σ' ran => stop.lands laid (performs.ends laidEnded ran _ rfl)
    again := fun σ holds => start.lands laidInside
      ((step.goes laidUpdated σ).jumps (test.taken laidTurned _ (by rw [holds]; rfl)))
    ends := fun σ fails => ((step.goes laidUpdated σ).trans
      (test.passed laidTurned _ (by rw [fails]; rfl))).trans (stop.past laid _) }
  obtain ⟨rfl, goes⟩ := circles.loop
    (fun σ holds => (entry.passed laidEntered σ (by rw [holds]; rfl)).trans
      (start.past laidInside σ))
    (fun σ fails => stop.lands laid (entry.taken laidEntered σ (by rw [fails]; rfl))) ran
  exact (begins.goes (whole.holds laid) σ).trans goes

/-- The statement behind a condition is left out if the condition does not hold. -/
theorem performs_ifThen (isCondition : cond.isCondition S.table = true)
    (bodies : Means S L body run) (idle : Idle L c)
    (ok : ifThen (lower cond) body S.scope c = .ok u d) :
    Performs S L c.exits.head?
      (fun σ => if cond.holds S.table σ then run σ else some (.past, σ)) c d := by
  obtain ⟨n, _, counts, ok⟩ := bind_inv ok
  obtain ⟨rfl, rfl⟩ := nextIf_eq_ok counts
  obtain ⟨_, inside, tests, ok⟩ := bind_inv ok
  obtain ⟨_, ended, runs, ok⟩ := bind_inv ok
  have counted : Idle L c.countIf := idle.of_eq rfl rfl rfl rfl
  have test : Tested S L _ _ c.countIf inside := tested_lower isCondition counted.toReady tests
  have idleInside := counted.after test.lays
  have performs := bodies idleInside runs
  have stop : Placed S L _ ended d := placed_putLabel (idleInside.after performs.lays) ok
  have lays := (test.lays.trans performs.lays).trans stop.lays
  rw [show c.exits = inside.exits from test.lays.exits.symm]
  refine ⟨.openedIf [.ifEnd _] (by simp) (by simp [Label.Within, Context.countIf]) lays,
    fun laid σ σ' outcome ran => ?_⟩
  have laidEnded := stop.lays.holds laid
  have laidInside := performs.lays.holds laidEnded
  split at ran
  · next holds =>
    have goesIn : Goes S L c σ inside σ := test.passed laidInside σ (by rw [holds]; rfl)
    exact goesIn.ends ((performs.ends laidEnded ran).onward fun _ => stop.past laid σ')
  · next fails =>
    cases ran
    exact stop.lands laid (test.taken laidInside σ (by rw [eq_false_of_ne_true fails]; rfl))

/-- One of two statements; a jump over the second one is left out if the first never needs it. -/
theorem performs_ifThenElse {jumps : Bool} {thenBody elseBody : Gen Unit}
    {first second : Store → Option (Outcome × Store)}
    (isCondition : cond.isCondition S.table = true) (firsts : Means S L thenBody first)
    (seconds : Means S L elseBody second)
    (never : jumps = true → ∀ σ σ', first σ ≠ some (.past, σ')) (idle : Idle L c)
    (ok : ifThenElse (lower cond) jumps thenBody elseBody S.scope c = .ok u d) :
    Performs S L c.exits.head?
      (fun σ => if cond.holds S.table σ then first σ else second σ) c d := by
  obtain ⟨n, _, counts, ok⟩ := bind_inv ok
  obtain ⟨rfl, rfl⟩ := nextIf_eq_ok counts
  obtain ⟨_, inside, tests, ok⟩ := bind_inv ok
  obtain ⟨_, ended, runs, ok⟩ := bind_inv ok
  have counted : Idle L c.countIf := idle.of_eq rfl rfl rfl rfl
  have test : Tested S L _ _ c.countIf inside := tested_lower isCondition counted.toReady tests
  have idleInside := counted.after test.lays
  have one := firsts idleInside runs
  have idleEnded := idleInside.after one.lays
  obtain ⟨skipped, skip, past, ok⟩ : ∃ skipped, Lays [] ended skipped ∧
      (L.Holds skipped → jumps = false → ∀ σ,
        Jumps S L ended σ (Label.ifEnd (c.ifCount + 1)).text σ) ∧
      (do putLabel (Label.otherwise (c.ifCount + 1)).text
          elseBody
          putLabel (Label.ifEnd (c.ifCount + 1)).text : Gen Unit) S.scope skipped = .ok u d := by
    cases jumps with
    | true => exact ⟨ended, .nothing ended, nofun, ok⟩
    | false =>
      obtain ⟨_, skipped, skips, ok⟩ := bind_inv ok
      have jump : Tested S L _ _ ended skipped := tested_emitJump skips
      exact ⟨skipped, jump.lays, fun laid _ σ => jump.taken laid σ rfl, ok⟩
  obtain ⟨_, begins, places, ok⟩ := bind_inv ok
  obtain ⟨_, closed, runs, ok⟩ := bind_inv ok
  have idleSkipped := idleEnded.after skip
  have middle : Placed S L _ skipped begins := placed_putLabel idleSkipped places
  have idleBegins := idleSkipped.after middle.lays
  have other := seconds idleBegins runs
  have stop : Placed S L _ closed d := placed_putLabel (idleBegins.after other.lays) ok
  have before := (test.lays.trans one.lays).trans skip
  have lays := ((before.trans middle.lays).trans other.lays).trans stop.lays
  have sameFirst : c.exits = inside.exits := test.lays.exits.symm
  have sameSecond : c.exits = begins.exits := (before.trans middle.lays).exits.symm
  refine ⟨.openedIf [.otherwise _, .ifEnd _] (by simp)
    (by simp [Label.Within, Context.countIf]) lays, fun laid σ σ' outcome ran => ?_⟩
  have laidClosed := stop.lays.holds laid
  have laidBegins := other.lays.holds laidClosed
  have laidSkipped := middle.lays.holds laidBegins
  have laidEnded := skip.holds laidSkipped
  have laidInside := one.lays.holds laidEnded
  split at ran
  · next holds =>
    have goesIn : Goes S L c σ inside σ := test.passed laidInside σ (by rw [holds]; rfl)
    rw [sameFirst]
    refine goesIn.ends ((one.ends laidEnded ran).onward ?_)
    rintro rfl
    cases always : jumps with
    | true => exact absurd ran (never always σ σ')
    | false => exact stop.lands laid (past laidSkipped always σ')
  · next fails =>
    have goesIn : Goes S L c σ begins σ := middle.lands laidBegins
      (test.taken laidInside σ (by rw [eq_false_of_ne_true fails]; rfl))
    rw [sameSecond]
    exact goesIn.ends ((other.ends laidClosed ran).onward fun _ => stop.past laid σ')

end Constructs

section Jumping

variable {S : Setting} {L : Listing} {c d : Context} {u : Unit} {table : Table} {fuel : Nat}
variable {label : String} {s : Stmt}

theorem leaveTarget_eq_ok {scope : Scope} (ok : leaveTarget scope c = .ok label d) :
    d = c ∧ LeadsTo c.exits.head? label .leave := by
  obtain ⟨_, _, ⟨⟩, ok⟩ := bind_inv ok
  cases around : c.exits with
  | nil =>
    rw [around] at ok
    cases ok
  | cons exits rest =>
    rw [around] at ok
    cases ok
    refine ⟨rfl, ?_⟩
    rintro _ ⟨⟩
    rfl

theorem nextTarget_eq_ok {scope : Scope} (ok : nextTarget scope c = .ok label d) :
    d = c ∧ LeadsTo c.exits.head? label .next := by
  obtain ⟨_, _, ⟨⟩, ok⟩ := bind_inv ok
  cases around : c.exits.head?.bind (·.next) with
  | none =>
    rw [around] at ok
    cases ok
  | some next =>
    rw [around] at ok
    cases ok
    exact ⟨rfl, around⟩

/-- A block of one statement means what the statement means. -/
theorem exec_unwrapped (s : Stmt) (σ : Store) :
    (unwrapped s).exec table fuel σ = s.exec table fuel σ := by
  unfold unwrapped
  split
  · next loc t =>
    split
    · rw [Stmt.exec, Stmt.execAll]
      cases ended : t.exec table fuel σ with
      | none => rfl
      | some how =>
        obtain ⟨outcome, σ'⟩ := how
        cases outcome <;> rfl
    · rfl
  · rfl

theorem isStructured_unwrapped (structured : s.isStructured table = true) :
    (unwrapped s).isStructured table = true := by
  unfold unwrapped
  split
  · split
    · simp only [Stmt.isStructured, Stmt.areStructured, Bool.and_eq_true] at structured
      exact structured.2.1
    · exact structured
  · exact structured

/-- A statement that does nothing but go to a label leaves a loop or a round of it. -/
theorem jumpTarget_eq_ok {scope : Scope} {target : Option String}
    (structured : s.isStructured table = true) (ok : jumpTarget s scope c = .ok target d) :
    d = c ∧ ∀ label, target = some label → ∃ outcome, LeadsTo c.exits.head? label outcome ∧
      ∀ σ, s.exec table fuel σ = some (outcome, σ) := by
  have fine := isStructured_unwrapped structured
  simp only [← exec_unwrapped s]
  unfold jumpTarget at ok
  generalize unwrapped s = t at ok fine
  split at ok
  · cases ok
    exact ⟨rfl, nofun⟩
  · cases t with
    | leave loc =>
      obtain ⟨label, _, aims, returns⟩ := bind_inv ok
      obtain ⟨rfl, aimed⟩ := leaveTarget_eq_ok aims
      cases returns
      refine ⟨rfl, ?_⟩
      rintro _ ⟨⟩
      exact ⟨.leave, aimed, fun σ => rfl⟩
    | next loc =>
      obtain ⟨label, _, aims, returns⟩ := bind_inv ok
      obtain ⟨rfl, aimed⟩ := nextTarget_eq_ok aims
      cases returns
      refine ⟨rfl, ?_⟩
      rintro _ ⟨⟩
      exact ⟨.next, aimed, fun σ => rfl⟩
    | goto loc name => cases fine
    | _ =>
      cases ok
      exact ⟨rfl, nofun⟩

theorem performs_jump {outcome : Outcome} (leads : LeadsTo c.exits.head? label outcome)
    (ok : emitJump label S.scope c = .ok u d) :
    Performs S L c.exits.head? (fun σ => some (outcome, σ)) c d := by
  have jump : Tested S L label _ c d := tested_emitJump ok
  refine ⟨jump.lays, fun laid σ σ' outcome ran => ?_⟩
  cases ran
  exact Jumps.ends leads (jump.taken laid σ rfl)

theorem performs_ifJump {cond : Expr} {run : Store → Option (Outcome × Store)} {outcome : Outcome}
    (isCondition : cond.isCondition S.table = true) (leads : LeadsTo c.exits.head? label outcome)
    (ends : ∀ σ, run σ = some (outcome, σ)) (idle : Idle L c)
    (ok : (lower cond).test label false S.scope c = .ok u d) : Performs S L c.exits.head?
      (fun σ => if cond.holds S.table σ then run σ else some (.past, σ)) c d := by
  have test : Tested S L label _ c d := tested_lower isCondition idle.toReady ok
  refine ⟨test.lays, fun laid σ σ' outcome ran => ?_⟩
  split at ran
  · next holds =>
    cases (ends σ).symm.trans ran
    exact Jumps.ends leads (test.taken laid σ (by rw [holds]; rfl))
  · next fails =>
    cases ran
    exact test.passed laid σ (by rw [eq_false_of_ne_true fails]; rfl)

/-- How statements end one after another. -/
theorem execAll_cons {rest : List Stmt} {σ σ' : Store} {outcome : Outcome}
    (ran : Stmt.execAll table fuel (s :: rest) σ = some (outcome, σ')) :
    (∃ σ₁, s.exec table fuel σ = some (.past, σ₁) ∧
      Stmt.execAll table fuel rest σ₁ = some (outcome, σ')) ∨
    (outcome ≠ .past ∧ s.exec table fuel σ = some (outcome, σ')) := by
  rw [Stmt.execAll] at ran
  cases first : s.exec table fuel σ with
  | none =>
    rw [first] at ran
    cases ran
  | some ended =>
    obtain ⟨how, σ₁⟩ := ended
    rw [first] at ran
    cases how with
    | past => exact .inl ⟨σ₁, rfl, ran⟩
    | leave | next =>
      cases ran
      exact .inr ⟨nofun, rfl⟩

mutual

/-- A statement that always jumps never ends past its end. -/
theorem exec_ne_past : ∀ {s : Stmt}, s.jumps = true → ∀ σ σ',
    s.exec table fuel σ ≠ some (.past, σ')
  | .leave _, _, _, _ => nofun
  | .next _, _, _, _ => nofun
  | .ret _ _, _, _, _ => nofun
  | .goto _ _, _, _, _ => nofun
  | .block _ body, jumps, σ, σ' => by
      rw [Stmt.exec]
      exact execAll_ne_past jumps σ σ'

theorem execAll_ne_past : ∀ {body : List Stmt}, Stmt.lastJumps body = true → ∀ σ σ',
    Stmt.execAll table fuel body σ ≠ some (.past, σ')
  | [s], jumps, σ, σ', ran => by
      rcases execAll_cons ran with ⟨σ₁, first, -⟩ | ⟨notPast, -⟩
      · exact exec_ne_past jumps σ σ₁ first
      · exact notPast rfl
  | s :: t :: rest, jumps, σ, σ', ran => by
      rcases execAll_cons ran with ⟨σ₁, -, others⟩ | ⟨notPast, -⟩
      · have later : Stmt.lastJumps (t :: rest) = true := jumps
        exact execAll_ne_past later σ₁ σ' others
      · exact notPast rfl

end

end Jumping

section Statements

variable {S : Setting} {L : Listing} {fuel : Nat}

mutual

/-- The code of a structured statement does what the statement means. -/
theorem performs_stmt : ∀ {s : Stmt}, s.isStructured S.table = true →
    Means S L (stmt s) (s.exec S.table fuel)
  | .block loc body, structured => by
      obtain ⟨plain, all⟩ := Bool.and_eq_true_iff.mp structured
      exact performs_enter plain (performs_stmts all)
  | .expr loc e, structured => by
      obtain ⟨plain, isStep⟩ := Bool.and_eq_true_iff.mp structured
      refine performs_enter plain fun {c d} idle ok => ?_
      have moved : Moved S L _ c d := moved_exprStmt isStep idle ok
      refine ⟨moved.lays, fun laid σ σ' outcome ran => ?_⟩
      cases ran
      exact moved.goes laid σ
  | .forLoop loc init cond update body, structured => by
      simp only [Stmt.isStructured, Bool.and_eq_true] at structured
      obtain ⟨⟨⟨⟨plain, isInit⟩, isCondition⟩, isUpdate⟩, inner⟩ := structured
      exact performs_enter plain
        (performs_forLoop isInit isCondition isUpdate (performs_stmt inner))
  | .whileLoop loc cond body, structured => by
      simp only [Stmt.isStructured, Bool.and_eq_true] at structured
      obtain ⟨⟨plain, isCondition⟩, inner⟩ := structured
      exact performs_enter plain (performs_whileLoop isCondition (performs_stmt inner))
  | .doWhile loc body cond, structured => by
      simp only [Stmt.isStructured, Bool.and_eq_true] at structured
      obtain ⟨⟨plain, isCondition⟩, inner⟩ := structured
      exact performs_enter plain (performs_doWhile isCondition (performs_stmt inner))
  | .ifElse loc cond thenBody none, structured => by
      simp only [Stmt.isStructured, Bool.and_eq_true] at structured
      obtain ⟨⟨plain, isCondition⟩, inner⟩ := structured
      refine performs_enter plain fun idle ok => ?_
      obtain ⟨target, _, aims, ok⟩ := bind_inv ok
      obtain ⟨rfl, aimed⟩ := jumpTarget_eq_ok inner aims
      cases target with
      | none => exact performs_ifThen isCondition (performs_stmt inner) idle ok
      | some label =>
        obtain ⟨outcome, leads, ends⟩ := aimed label rfl
        exact performs_ifJump isCondition leads ends idle ok
  | .ifElse loc cond thenBody (some elseBody), structured => by
      simp only [Stmt.isStructured, Bool.and_eq_true] at structured
      obtain ⟨⟨⟨plain, isCondition⟩, innerThen⟩, innerElse⟩ := structured
      exact performs_enter plain (performs_ifThenElse isCondition (performs_stmt innerThen)
        (performs_stmt innerElse) exec_ne_past)
  | .leave loc, structured => by
      refine performs_enter structured fun _ ok => ?_
      obtain ⟨label, _, aims, jumps⟩ := bind_inv ok
      obtain ⟨rfl, leads⟩ := leaveTarget_eq_ok aims
      exact performs_jump leads jumps
  | .next loc, structured => by
      refine performs_enter structured fun _ ok => ?_
      obtain ⟨label, _, aims, jumps⟩ := bind_inv ok
      obtain ⟨rfl, leads⟩ := nextTarget_eq_ok aims
      exact performs_jump leads jumps

theorem performs_stmts : ∀ {body : List Stmt}, Stmt.areStructured S.table body = true →
    Means S L (stmts body) (Stmt.execAll S.table fuel body)
  | [], _, c, d, idle, ok => by
      cases ok
      refine ⟨.nothing c, fun _ σ σ' outcome ran => ?_⟩
      cases ran
      exact .refl c σ
  | s :: rest, structured, c, d, idle, ok => by
      obtain ⟨isFirst, areOthers⟩ := Bool.and_eq_true_iff.mp structured
      obtain ⟨_, between, begins, ok⟩ := bind_inv ok
      have first := performs_stmt isFirst idle begins
      have others := performs_stmts areOthers (idle.after first.lays) ok
      refine ⟨first.lays.trans others.lays, fun laid σ σ' outcome ran => ?_⟩
      have laidBetween := others.lays.holds laid
      rcases execAll_cons ran with ⟨σ₁, past, further⟩ | ⟨notPast, ended⟩
      · rw [← first.lays.exits]
        exact (first.goes laidBetween past).ends (others.ends laid further)
      · exact (first.ends laidBetween ended).onward fun past => absurd past notPast

end

end Statements

end Backend6502.Lowering
