import Backend6502.Proofs.ByteAssignments
import Backend6502.Proofs.CompiledFunctions
import Backend6502.Proofs.FinalStreams

/-!
# Pauses

A statement `csleep` of a constant becomes a run of instructions that let so many cycles pass and do
nothing that counts, and nothing else (`PauseOf`). The optimizer removes none of them, and a repair
replaces branches, none of which is inside a run. So each run stands in the finished stream as it
was generated, between the same other idle lines (`Survives`).
-/

namespace Backend6502

namespace Code

/-- Does the instruction do nothing that counts? -/
def Line.isIdle : Line → Bool
  | .instruction i =>
    i.is .nop && i.mode == .implied || i.is .bit && i.mode == .zeroPage
  | _ => false

/-- A run of idle instructions that takes so many cycles. -/
structure IsPause (n : Int) (run : List Line) : Prop where
  idle : ∀ line ∈ run, line.isIdle = true
  cycles : (((run.filterMap Line.instruction?).map (·.cycles)).sum : Nat) = n

theorem IsPause.append {m n : Int} {first second : List Line} (begins : IsPause m first)
    (ends : IsPause n second) : IsPause (m + n) (first ++ second) where
  idle := List.forall_mem_append.mpr ⟨begins.idle, ends.idle⟩
  cycles := by
    rw [List.filterMap_append, List.map_append, List.sum_append, Nat.cast_add, begins.cycles,
      ends.cycles]

theorem isPause_replicate {i : Instruction} (idle : (Line.instruction i).isIdle = true)
    (count : Nat) :
    IsPause (count * i.cycles) (List.replicate count (.instruction i)) where
  idle line inside := (List.mem_replicate.mp inside).2 ▸ idle
  cycles := by simp [List.filterMap_replicate, Line.instruction?]

theorem spared_isIdle : Spared Line.isIdle where
  silent line silent := by cases line <;> first | rfl | cases silent
  label _ := rfl
  light i m op light := by
    rw [Line.isIdle, Instruction.is, Instruction.is, op]
    cases m <;> first | rfl | cases light

/-- The code of a pause, and the lines that were generated before it. -/
structure Pause where
  above : List Line
  run : List Line

/-- From the first lines to the last ones, the pauses come one after another. -/
def InSequence : List Line → List Pause → List Line → Prop
  | first, [], last => first <+: last
  | first, p :: pauses, last => first <+: p.above ∧ InSequence (p.above ++ p.run) pauses last

namespace InSequence

variable {first between last : List Line} {pauses more : List Pause}

theorem of_prefix (begins : first <+: between) (sequence : InSequence between pauses last) :
    InSequence first pauses last := by
  cases pauses with
  | nil => exact begins.trans sequence
  | cons p pauses => exact ⟨begins.trans sequence.1, sequence.2⟩

theorem append (sequence : InSequence first pauses between)
    (follow : InSequence between more last) : InSequence first (pauses ++ more) last := by
  induction pauses generalizing first with
  | nil => exact follow.of_prefix sequence
  | cons p pauses ih => exact ⟨sequence.1, ih sequence.2⟩

theorem prefix_last (sequence : InSequence first pauses last) : first <+: last := by
  induction pauses generalizing first with
  | nil => exact sequence
  | cons p pauses ih =>
    exact sequence.1.trans ((List.prefix_append p.above p.run).trans (ih sequence.2))

theorem exists_below (sequence : InSequence first pauses last) {p : Pause} (inside : p ∈ pauses) :
    ∃ below, last = p.above ++ (p.run ++ below) := by
  induction pauses generalizing first with
  | nil => cases inside
  | cons q pauses ih =>
    rcases List.mem_cons.mp inside with rfl | later
    · obtain ⟨below, same⟩ := sequence.2.prefix_last
      exact ⟨below, by rw [← same, List.append_assoc]⟩
    · exact ih sequence.2 later

end InSequence

/--
The run stands among the lines without a gap, and the idle lines above and below it are the same.
-/
def Survives (above run below lines : List Line) : Prop :=
  ∃ before after, lines = before ++ (run ++ after) ∧
    before.filter Line.isIdle = above.filter Line.isIdle ∧
    after.filter Line.isIdle = below.filter Line.isIdle

variable {run old new lines : List Line}

theorem exists_append_of_drops {first second : List Line}
    (drops : List.Forall₂ Drops (first ++ second) new) :
    ∃ kept rest, new = kept ++ rest ∧ List.Forall₂ Drops first kept ∧
      List.Forall₂ Drops second rest := by
  induction first generalizing new with
  | nil => exact ⟨[], new, rfl, .nil, drops⟩
  | cons line first ih =>
    rcases drops with _ | ⟨head, tail⟩
    obtain ⟨kept, rest, rfl, mine, others⟩ := ih tail
    exact ⟨_, rest, rfl, .cons head mine, others⟩

theorem eq_of_drops_of_idle (drops : List.Forall₂ Drops old new)
    (idle : ∀ line ∈ old, line.isIdle = true) : new = old := by
  have kept : new.filter Line.isIdle = old := by
    rw [spared_isIdle.filter_drops drops, List.filter_eq_self.mpr idle]
  have whole : new.filter Line.isIdle = new :=
    List.filter_sublist.eq_of_length (by rw [kept, drops.length_eq])
  exact whole.symm.trans kept

/-- Of two stretches of a list that have no line in common, one ends before the other begins. -/
theorem apart_cases {before after start stop : List Line}
    (split : before ++ (old ++ after) = start ++ (run ++ stop)) (filled : run ≠ [])
    (some : old ≠ []) (apart : ∀ line ∈ run, line ∉ old) :
    (∃ gap, before = start ++ (run ++ gap) ∧ stop = gap ++ (old ++ after)) ∨
      ∃ gap, start = before ++ (old ++ gap) ∧ after = gap ++ (run ++ stop) := by
  obtain ⟨first, run, rfl⟩ := List.exists_cons_of_ne_nil filled
  obtain ⟨head, old, rfl⟩ := List.exists_cons_of_ne_nil some
  rcases cut_append split with ⟨inner, rfl, behind⟩ | ⟨inner, rfl, inside⟩
  -- The run begins behind the lines before.
  · rcases cut_append behind with ⟨gap, rfl, rfl⟩ | ⟨last, within, -⟩
    · exact .inr ⟨gap, rfl, rfl⟩
    · exact absurd (by simp [within]) (apart first List.mem_cons_self)
  -- It begins before that, and so ends before that.
  · rcases cut_append inside with ⟨gap, rfl, rfl⟩ | ⟨last, rfl, -⟩
    · exact .inl ⟨gap, rfl, rfl⟩
    · exact absurd List.mem_cons_self (apart head (by simp))

theorem lasting_survives {above below : List Line} (idle : ∀ line ∈ run, line.isIdle = true)
    (filled : run ≠ []) : Lasting (Survives above run below) where
  drops := by
    rintro old new drops ⟨before, after, rfl, up, down⟩
    obtain ⟨kept, _, rfl, first, further⟩ := exists_append_of_drops drops
    obtain ⟨same, others, rfl, mine, behind⟩ := exists_append_of_drops further
    obtain rfl := eq_of_drops_of_idle mine idle
    exact ⟨kept, others, rfl, (spared_isIdle.filter_drops first).trans up,
      (spared_isIdle.filter_drops behind).trans down⟩
  repaired := by
    rintro site landing old number made ⟨before, after, split, up, down⟩
    have gone := spared_isIdle.filter_made made
    have apart (line : Line) (inside : line ∈ run) (other : line ∈ old) : False :=
      List.filter_eq_nil_iff.mp gone line other (idle line inside)
    have some : old ≠ [] := by
      rintro rfl
      cases made
    have new := spared_isIdle.filter_lines site number
    rcases apart_cases split filled some apart with ⟨gap, same, rfl⟩ | ⟨gap, rfl, same⟩
    · refine ⟨before, gap ++ (site.lines number ++ site.after), by simp [same], up, ?_⟩
      simpa [gone, new] using down
    · refine ⟨site.before.reverse ++ (site.lines number ++ gap), after, by simp [same], ?_, down⟩
      simpa [gone, new] using up

end Code

open Code (IsPause InSequence Pause Survives Line)
open Source (Expr Loc Arm Stmt)
open Symbols (Table Function)

namespace Source.Stmt

/-- The statement itself and how long it pauses, if it does. -/
def ownPause (table : Table) : Stmt → List (Stmt × Int64)
  | .expr loc (.call name [arg]) =>
    if name = "csleep" then
      ((Lowering.constant? table arg).map (Stmt.expr loc (.call name [arg]), ·)).toList
    else []
  | _ => []

end Source.Stmt

namespace Lowering

/--
The pause is the code of a statement: behind its label the statement adds the run and nothing else.
Then it ends as all statements do, where what was put off before is done, if there is anything.
-/
structure PauseOf (scope : Scope) (own : Stmt × Int64) (p : Pause) : Prop where
  isPause : IsPause own.2.toInt p.run
  filled : p.run ≠ []
  code : ∃ c e d, stmt own.1 scope c = .ok () d ∧
    p.above = c.code ++ labelLines own.1.loc ∧ e.code = p.above ++ p.run ∧
    endStatement scope e = .ok () d ∧ (c.deferred = [] → d.code = e.code)

variable {table : Table} {α β : Type} {ns more : List (Stmt × Int64)}

theorem idle_of_pauseOf {scope : Scope} {pauses : List Pause}
    (rests : List.Forall₂ (PauseOf scope) ns pauses) :
    ∀ p ∈ pauses, (∀ line ∈ p.run, line.isIdle = true) ∧ p.run ≠ [] :=
  ((List.forall₂_and_left _ _).mp (rests.imp fun _ _ rest =>
    ⟨⟨rest.isPause.idle, rest.filled⟩, rest⟩).flip).1

/--
The step stays in the pass for low bytes, and adds the pauses of the statements in their order.
-/
def Sleeps (table : Table) {α : Type} (ns : List (Stmt × Int64)) (m : Gen α) : Prop :=
  ∀ f c a d, c.high = false → m ⟨table, f⟩ c = .ok a d → d.high = false ∧
    ∃ pauses, List.Forall₂ (PauseOf ⟨table, f⟩) ns pauses ∧ InSequence c.code pauses d.code

namespace Sleeps

section Composition

variable {own : List String} {m : Gen α} {f : α → Gen β}

theorem of_composed (composed : Composed ⟨fun _ => True, True⟩ m)
    (stays : ∀ {scope c a d}, c.high = false → m scope c = .ok a d → d.high = false) :
    Sleeps table [] m := by
  intro f c a d low ok
  obtain ⟨lines, added⟩ := composed.appends ok
  exact ⟨stays low ok, [], .nil, lines, added.symm⟩

theorem of_built (built : Built ⟨fun _ => True, True⟩ false own (fun _ => True) m) :
    Sleeps table [] m :=
  of_composed built.composed fun low ok =>
    ((built.places _ _ fun _ _ => ⟨trivial, fun _ _ => trivial⟩).of_ok ok).low low

theorem bind_of {R : α → Prop} (yields : Yields R m) (first : Sleeps table ns m)
    (second : ∀ a, R a → Sleeps table more (f a)) : Sleeps table (ns ++ more) (m >>= f) := by
  intro g c b d low ok
  obtain ⟨a, between, began, ended⟩ := bind_inv ok
  obtain ⟨still, pauses, rests, sequence⟩ := first g c a between low began
  obtain ⟨pass, later, others, follow⟩ := second a (yields _ _ _ _ began) g between b d still ended
  exact ⟨pass, pauses ++ later, List.rel_append rests others, sequence.append follow⟩

theorem bind (first : Sleeps table ns m) (second : ∀ a, Sleeps table more (f a)) :
    Sleeps table (ns ++ more) (m >>= f) :=
  bind_of (fun _ _ _ _ _ => trivial) first fun a (_ : True) => second a

/-- A step that does not pause comes first. -/
theorem later (built : Built ⟨fun _ => True, True⟩ false own (fun _ => True) m)
    (rest : ∀ a, Sleeps table ns (f a)) : Sleeps table ns (m >>= f) :=
  bind (of_built built) rest

/-- Steps that do not pause come last. -/
theorem first (begins : Sleeps table ns m)
    (built : ∀ a, Built ⟨fun _ => True, True⟩ false own (fun _ => True) (f a)) :
    Sleeps table ns (m >>= f) := by
  rw [← List.append_nil ns]
  exact begins.bind fun a => of_built (built a)

theorem entered (loc : Loc) {rest : Unit → Gen α} (sleeps : Sleeps table ns (rest ())) :
    Sleeps table ns (enter loc >>= rest) :=
  later (.enter (.leave loc)) fun _ => sleeps

theorem ite {p : Prop} [Decidable p] {n : Gen α} (yes : Sleeps table ns m)
    (no : Sleeps table ns n) :
    Sleeps table ns (if p then m else n) :=
  iteInduction (fun _ => yes) fun _ => no

theorem check {p : Prop} [Decidable p] {cause : Cause} {rest : Unit → Gen α}
    (sleeps : Sleeps table ns (rest ())) :
    Sleeps table ns (if p then fail cause >>= rest else rest ()) :=
  .ite (later (.fail _ : Built _ _ [] _ _) fun _ => sleeps) sleeps

end Composition

section Constructs

variable {body elseBody : Gen Unit} (inner : Sleeps table ns body) (init cond update : Expr)

theorem test (label : String) (negate : Bool) :
    Built ⟨fun _ => True, True⟩ false [] (fun _ => True) ((lower cond).test label negate) :=
  (isBuilt_lower cond fun _ _ => trivial).test trivial negate

theorem nextWhile : Sleeps table [] nextWhile :=
  of_composed .nextWhile fun low ok => by
    cases ok
    exact low

include inner

theorem withExits (exits : Exits) : Sleeps table ns (withExits exits body) := by
  intro f c a d low ok
  obtain ⟨_, _, ⟨⟩, ok⟩ := bind_inv ok
  obtain ⟨_, _, ⟨⟩, ok⟩ := bind_inv ok
  obtain ⟨_, e, run, ⟨⟩⟩ := bind_inv ok
  exact inner f { c with exits := exits :: c.exits } _ e low run

theorem ifThen : Sleeps table ns (ifThen (lower cond) body) := by
  refine later .nextIf fun n => later (test cond _ _) fun _ => ?_
  exact inner.first fun _ => .putLabel _

theorem ifThenElse (jumps : Bool) (other : Sleeps table more elseBody) :
    Sleeps table (ns ++ more) (ifThenElse (lower cond) jumps body elseBody) := by
  refine later .nextIf fun n => later (test cond _ _) fun _ => ?_
  have second : Sleeps table more (do
      putLabel (Label.otherwise n).text
      elseBody
      putLabel (Label.ifEnd n).text) :=
    later (.putLabel _) fun _ => other.first fun _ => .putLabel _
  exact inner.bind fun _ => .ite (later (.emitJump trivial) fun _ => second) second

theorem forLoop : Sleeps table ns (forLoop init cond update body) := by
  have next : Sleeps table [] nextFor := of_composed .nextFor fun low ok => by
    cases ok
    exact low
  refine later (.forInit fun _ _ => trivial) fun _ => next.bind fun n => ?_
  refine later (.forFirst (fun _ _ => trivial) trivial) fun _ => later (.putLabel _) fun _ => ?_
  exact (inner.withExits _).first fun _ => .labelled _ fun _ =>
    .bind (.exprStmt fun _ _ => trivial) fun _ =>
      .bind (.forAgain (fun _ _ => trivial) trivial) fun _ => .putLabel _

theorem whileLoop : Sleeps table ns (whileLoop (lower cond) body) := by
  refine nextWhile.bind fun n => later (.putLabel _) fun _ => later (test cond _ _) fun _ => ?_
  exact (inner.withExits _).first fun _ => .bind (.emitJump trivial) fun _ => .putLabel _

theorem doWhile : Sleeps table ns (doWhile body (lower cond)) := by
  refine nextWhile.bind fun n => later (.putLabel _) fun _ => ?_
  exact (inner.withExits _).first fun _ => .labelled _ fun _ =>
    .bind (test cond _ _) fun _ => .putLabel _

end Constructs

section Switches

variable {plan : SwitchPlan} {place : Place}

theorem arm {arm : ArmCode} (found : compareOf? place = some plan.compare)
    (inner : Sleeps table ns arm.body) (k : Nat) (runsIn : Bool) (rest : List ArmCode) :
    Sleeps table ns (plan.arm k runsIn arm rest) := by
  have labelled : Sleeps table ns (do
      putLabel (plan.body k)
      arm.body) :=
    later (.putLabel _) fun _ => inner
  have tests : Sleeps table ns (do
      plan.tests (plan.body k) (plan.firstTest (k + 1) rest) arm.values
      putLabel (plan.body k)
      arm.body) :=
    later (SwitchPlan.built_tests (compares_of_compareOf? found) trivial trivial _) fun _ =>
      labelled
  have next : Sleeps table ns (do
      putLabel (plan.next k)
      plan.tests (plan.body k) (plan.firstTest (k + 1) rest) arm.values
      putLabel (plan.body k)
      arm.body) :=
    later (.putLabel _) fun _ => tests
  exact .ite (.ite (.ite (later (.emitJump trivial) fun _ => next) next) tests) labelled

theorem switch (selector : Expr) {codes : List ArmCode}
    (arms : ∀ {plan : SwitchPlan} {place : Place}, compareOf? place = some plan.compare →
      Sleeps table ns (plan.arms 0 false codes)) :
    Sleeps table ns (switch (lower selector) codes) := by
  have selected : Sleeps table [] (loadSelector (lower selector)) :=
    of_built (.loadSelector (isBuilt_lower selector fun _ _ => trivial))
  refine later (.isWide _) fun wide => check ?_
  refine bind_of (yields_loadSelector _) selected fun place register => ?_
  refine later (.setAccInUse _) fun _ => later .flush fun _ => ?_
  refine later (.setAccInUse _) fun _ => later .nextIf fun n => ?_
  refine later (.findDefault codes) fun default? => ?_
  obtain ⟨compare, found⟩ := Option.isSome_iff_exists.mp register
  simp only [found]
  intro f c
  refine first (.withExits ?_ _) (fun _ => .putLabel _) f c
  exact later (SwitchPlan.built_enter (fun _ _ _ => trivial) trivial) fun _ => arms found

end Switches

end Sleeps

/-- The run is made of instructions of two cycles, and of one of three if the number is odd. -/
theorem sleep_eq_ok {n : Int64} {scope : Scope} {c d : Context} {u : Unit} (long : ¬ n < 2)
    (ok : sleep n scope c = .ok u d) :
    d.high = c.high ∧ d.deferred = c.deferred ∧
      ∃ run, d.code = c.code ++ run ∧ IsPause n.toInt run ∧ run ≠ [] := by
  have bound : 2 ≤ n.toInt := by
    rw [Int64.lt_iff_toInt_lt] at long
    exact Int.not_lt.mp long
  have pause {count total : Int} {run : List Line} (pauses : IsPause count run)
      (same : count = total) :
      IsPause total run := same ▸ pauses
  unfold sleep at ok
  split at ok
  · obtain ⟨_, _, ⟨⟩, ok⟩ := bind_inv ok
    obtain ⟨_, _, ⟨⟩, ⟨⟩⟩ := bind_inv ok
    refine ⟨rfl, rfl, _, List.append_assoc _ _ _, pause (.append (Code.isPause_replicate rfl _)
      (Code.isPause_replicate rfl _)) ?_, by simp⟩
    change 1 * 3 + ((n.toInt.toNat - 3) / 2 : Nat) * 2 = n.toInt
    omega
  · cases ok
    refine ⟨rfl, rfl, _, rfl, pause (Code.isPause_replicate rfl _) ?_, ?_⟩
    · change (n.toInt.toNat / 2 : Nat) * 2 = n.toInt
      omega
    · rw [Ne, List.replicate_eq_nil_iff]
      omega

theorem endStatement_eq_ok {scope : Scope} {c d : Context} {u : Unit} (low : c.high = false)
    (ok : endStatement scope c = .ok u d) :
    d.high = false ∧ c.code <+: d.code ∧ (c.deferred = [] → d.code = c.code) := by
  have built : Built ⟨fun _ => True, True⟩ false [] (fun _ => True) endStatement := .endStatement
  obtain ⟨lines, added⟩ := built.composed.appends ok
  exact ⟨((built.places _ _ fun _ _ => ⟨trivial, fun _ _ => trivial⟩).of_ok ok).low low,
    ⟨lines, added.symm⟩, fun none => endStatement_code low none ok⟩

theorem sleeps_csleep (loc : Loc) {arg : Expr} {n : Int64} (known : constant? table arg = some n) :
    Sleeps table [(.expr loc (.call "csleep" [arg]), n)]
      (stmt (.expr loc (.call "csleep" [arg]))) := by
  intro f c a d low ok
  have whole := ok
  rw [stmt] at ok
  obtain ⟨_, _, entered, ok⟩ := bind_inv ok
  obtain ⟨flags, rfl⟩ := enter_eq_ok entered
  obtain ⟨_, e, ok, ends⟩ := bind_inv (m := call "csleep" [(lower arg).toOperand]) ok
  rw [call, if_pos (by decide)] at ok
  obtain ⟨_, _, ⟨⟩, ok⟩ := bind_inv ok
  rw [low] at ok
  obtain ⟨_, _, ⟨⟩, ok⟩ := bind_inv ok
  obtain ⟨_, _, ⟨⟩, ok⟩ := bind_inv ok
  have stands : constant? table (lower arg).toOperand.expr = some n := (expr_lower arg).symm ▸ known
  simp only [stands] at ok
  split at ok
  · cases ok
  · next long =>
    obtain ⟨_, _, slept, ⟨⟩⟩ := bind_inv ok
    obtain ⟨still, put, run, added, pauses, filled⟩ := sleep_eq_ok long slept
    obtain ⟨high, grows, same⟩ := endStatement_eq_ok still ends
    let pause : Pause := ⟨c.code ++ labelLines loc, run⟩
    have rests : PauseOf ⟨table, f⟩ (.expr loc (.call "csleep" [arg]), n) pause :=
      { isPause := pauses
        filled := filled
        code := ⟨c, e, d, whole, rfl, added, ends, fun none => same (put.trans none)⟩ }
    refine ⟨high, [pause], .cons rests .nil, List.prefix_append _ _, ?_⟩
    change pause.above ++ run <+: d.code
    exact added ▸ grows

theorem sleeps_expr (loc : Loc) (e : Expr) :
    Sleeps table (Stmt.ownPause table (.expr loc e)) (stmt (.expr loc e)) := by
  have plain : Sleeps table [] (stmt (.expr loc e)) := by
    rw [stmt]
    exact .entered loc (.of_built (.exprStmt fun _ _ => trivial))
  unfold Stmt.ownPause
  split
  · next arg same =>
    cases same
    split
    · next named =>
      subst named
      cases known : constant? table arg with
      | none => exact plain
      | some n => exact sleeps_csleep loc known
    · exact plain
  · exact plain

theorem pauses_unwrapped (s : Stmt) :
    (unwrapped s).collect (Stmt.ownPause table) = s.collect (Stmt.ownPause table) := by
  unfold unwrapped
  split
  · split
    · simp [Stmt.collect, Stmt.collectAll, Stmt.ownPause]
    · rfl
  · rfl

/-- A statement that only goes somewhere does not pause. -/
theorem yields_jumpTarget (table : Table) (s : Stmt) :
    Yields (fun label? => label?.isSome = true → s.collect (Stmt.ownPause table) = [])
      (jumpTarget s) := by
  unfold jumpTarget
  rw [← pauses_unwrapped]
  generalize unwrapped s = s
  refine .ite (.pure (by simp)) ?_
  split
  · exact .bind fun _ => .pure fun _ => rfl
  · exact .bind fun _ => .pure fun _ => rfl
  · exact .pure fun _ => rfl
  · exact .pure (by simp)

theorem sleeps_jumpTarget (s : Stmt) : Sleeps table [] (jumpTarget s) := by
  refine .of_composed (composed_jumpTarget s) fun {scope c a d} low ok => ?_
  have leads : Leads (fun _ => True) c.exits := fun _ _ => ⟨trivial, fun _ _ => trivial⟩
  exact ((ensures_jumpTarget (fun _ _ => trivial) _ leads).of_ok ok).2.low low

mutual

theorem sleeps_stmt : ∀ s : Stmt, Sleeps table (s.collect (Stmt.ownPause table)) (stmt s)
  | .block loc body => by
    rw [stmt]
    exact .entered loc (sleeps_stmts body)
  | .expr loc e => sleeps_expr loc e
  | .forLoop loc init cond update body => by
    rw [stmt]
    exact .entered loc (.forLoop (sleeps_stmt body) init cond update)
  | .whileLoop loc cond body => by
    rw [stmt]
    exact .entered loc (.whileLoop (sleeps_stmt body) cond)
  | .doWhile loc body cond => by
    rw [stmt]
    exact .entered loc (.doWhile (sleeps_stmt body) cond)
  | .ifElse loc cond thenBody none => by
    rw [stmt]
    refine .entered loc (.bind_of (yields_jumpTarget table thenBody) (sleeps_jumpTarget thenBody)
      fun label? short => ?_)
    cases label? with
    | some label =>
      rw [short rfl]
      exact .of_built (Sleeps.test cond label false)
    | none => exact .ifThen (sleeps_stmt thenBody) cond
  | .ifElse loc cond thenBody (some elseBody) => by
    rw [stmt]
    exact .entered loc (.ifThenElse (sleeps_stmt thenBody) cond _ (sleeps_stmt elseBody))
  | .switch loc selector arms => by
    rw [stmt]
    exact .entered loc (.switch selector fun found => sleeps_arms arms found 0 false)
  | .leave loc => by
    rw [stmt]
    exact .entered loc (.of_built .leave)
  | .next loc => by
    rw [stmt]
    exact .entered loc (.of_built .next)
  | .ret loc value => by
    rw [stmt]
    exact .entered loc (.of_built (.returnStmt fun _ _ => trivial))
  | .asm loc text => by
    rw [stmt]
    exact .entered loc (.of_built (.asmStmt text))
  | .strobe loc e => by
    rw [stmt]
    exact .entered loc (.of_built (.strobe e))
  | .goto loc name => by
    rw [stmt]
    exact .entered loc (.of_built (.emitJump trivial))

theorem sleeps_stmts : ∀ body : List Stmt,
    Sleeps table (Stmt.collectAll (Stmt.ownPause table) body) (stmts body)
  | [] => by
    rw [stmts]
    exact .of_built (.pure ())
  | s :: rest => by
    rw [stmts]
    exact .bind (sleeps_stmt s) fun _ => sleeps_stmts rest

theorem sleeps_arms : ∀ (arms : List (Arm Stmt)) {plan : SwitchPlan} {place : Place},
    compareOf? place = some plan.compare → ∀ k runsIn,
      Sleeps table (Stmt.collectArms (Stmt.ownPause table) arms)
      (plan.arms k runsIn (armCodes arms))
  | [], _, _, _, k, runsIn => by
    rw [armCodes, SwitchPlan.arms]
    exact .of_built (.pure ())
  | ⟨_, _, body⟩ :: rest, _, _, found, k, runsIn => by
    rw [armCodes, armCode, SwitchPlan.arms]
    exact .bind (.arm found (sleeps_stmts body) k runsIn _) fun _ => sleeps_arms rest found _ _

end

/-- The statements of a function that pause, in the order of their code, and how long they do. -/
def pausesOf (table : Table) (f : Function) : List (Stmt × Int64) :=
  match f.body with
  | none => []
  | some block => block.toStmt.collect (Stmt.ownPause table)

theorem sleeps_function (f : Function) : Sleeps table (pausesOf table f) (function f) := by
  unfold pausesOf Lowering.function
  refine .later (.putLabel _) fun _ => ?_
  cases f.body with
  | none => exact .of_built .emitReturn
  | some block => exact .first (sleeps_stmt block.toStmt) fun _ => .ite .emitReturn (.pure _)

end Lowering

def pauseFor (n : Int64) : Stmt :=
  .expr {} (.call "csleep" [.int n])

/-- A pause of five cycles, and one of two in a loop. -/
def resting : Function :=
  { name := "main", body := some ⟨{}, [pauseFor 5, .whileLoop {} (.int 1) (pauseFor 2)]⟩ }

def restingTable : Table :=
  { functions := [resting] }

end Backend6502
