import Backend6502.Compiler
import Backend6502.Proofs.RepairEnds
import Backend6502.Proofs.SafeStatements
import Backend6502.Proofs.SymbolTables

/-!
# Where calls go

What the optimizer and every single repair keep holds of the finished stream (`finish_lasting`). In
particular no call is taken away or brought in, and their order stays.

The calls across banks that were met before have no effect on the code of a function: a step only
adds to them. What it adds, and where the calls among its lines go, is read off once for a call of a
function and follows for all steps that are composed of such calls.
-/

namespace Backend6502

namespace Code

open Cpu (Mnemonic)

def callLines (lines : List Line) : List Line :=
  lines.filter Line.isCall

theorem callLines_append (lines more : List Line) :
    callLines (lines ++ more) = callLines lines ++ callLines more :=
  List.filter_append lines more

theorem callLines_eq_nil {lines : List Line} :
    callLines lines = [] ↔ ∀ line ∈ lines, line.isCall = false := by
  simp [callLines]

theorem mem_callLines {i : Instruction} {lines : List Line} :
    .instruction i ∈ callLines lines ↔
      .instruction i ∈ lines ∧ (Line.instruction i).isCall = true :=
  List.mem_filter

/-- A kind of lines that neither the optimizer nor a repair takes away or brings in. -/
structure Spared (p : Line → Bool) : Prop where
  silent : ∀ line, line.isSilent = true → p line = false
  label : ∀ name, p (.label name) = false
  light : ∀ i m, i.op = .known m → (dispensable m || m.isBranch || m == .jmp) = true →
    p (.instruction i) = false

namespace Spared

variable {p : Line → Bool} (spared : Spared p) {old new : List Line}

include spared

theorem filter_drops (drops : List.Forall₂ Drops old new) : new.filter p = old.filter p := by
  induction drops with
  | nil => rfl
  | cons head _ ih =>
    cases head with
    | same => rw [List.filter_cons, List.filter_cons, ih]
    | @removed i m _ found light =>
      have gone := spared.light i m (Instruction.op_of_mnemonic? found) (by rw [light]; rfl)
      simp [gone, spared.silent .removed rfl, ih]
    | @jump i _ branches =>
      have gone : p (.instruction i) = false := by
        rcases branches with found | found <;>
          exact spared.light i _ (Instruction.op_of_mnemonic? found) rfl
      simp [gone, spared.light (.jump i.operand) .jmp rfl rfl, ih]

theorem filter_made {site : Site} {landing : List Line} (made : site.Made landing old) :
    old.filter p = [] := by
  refine List.filter_eq_nil_iff.mpr fun line inside => Bool.eq_false_iff.mp ?_
  rcases made.line_cases inside with silent | ⟨i, m, rfl, op, branches⟩
  · exact spared.silent line silent
  · exact spared.light i m op (by simp [branches])

theorem filter_lines (site : Site) (number : Nat) : (site.lines number).filter p = [] := by
  have branch {m : Mnemonic} (target : String) (branches : m.isBranch = true) :
      p (Site.guarded m target) = false := spared.light _ m rfl (by simp [branches])
  have jump (target : String) : p (.instruction (.jump target)) = false :=
    spared.light _ .jmp rfl rfl
  have equal (target : String) : p (Site.guarded .beq target) = false := branch target rfl
  have other (test : Test) (signed : Bool) (target : String) :
      p (Site.guarded (test.branch signed) target) = false :=
    branch target (Test.isBranch_branch _ _)
  unfold Site.lines
  cases site.decision <;> simp [equal, other, jump, spared.label]

end Spared

theorem spared_isCall : Spared Line.isCall where
  silent line silent := by cases line <;> first | rfl | cases silent
  label _ := rfl
  light i m op light := by
    rw [Line.isCall, op]
    cases m <;> first | rfl | cases light

namespace Stream

theorem name_repairUpTo (bound : Nat) (s : Stream) : (s.repairUpTo bound).1.name = s.name := by
  exact repairUpTo_keeps (P := fun t => t.name = s.name) bound (fun _ _ same => same) rfl

end Stream

/-- A property of lines that neither the optimizer nor a repair ends. -/
structure Lasting (P : List Line → Prop) : Prop where
  drops : ∀ {old new : List Line}, List.Forall₂ Drops old new → P old → P new
  repaired : ∀ {site : Site} {landing old : List Line} (number : Nat), site.Made landing old →
    P (site.before.reverse ++ (old ++ site.after)) →
      P (site.before.reverse ++ (site.lines number ++ site.after))

theorem Lasting.repairUpTo {P : List Line → Prop} (lasting : Lasting P) (bound : Nat) (s : Stream)
    (holds : P s.lines) : P (s.repairUpTo bound).1.lines := by
  refine Stream.repairUpTo_keeps (P := fun s => P s.lines) bound ?_ holds
  intro s site old landing made shape holds
  rw [Stream.lines_repairSite]
  exact lasting.repaired _ made (shape ▸ holds)

/-- Lines that are spared are kept in their order. -/
theorem Spared.lasting {p : Line → Bool} (spared : Spared p) (kept : List Line) :
    Lasting fun lines => lines.filter p = kept where
  drops drops same := (spared.filter_drops drops).trans same
  repaired number made same := by
    simp only [List.filter_append, spared.filter_made made, spared.filter_lines] at same ⊢
    exact same

end Code

open Code (Stream Line Lasting callLines)

theorem finish_name {level : Int64} {s finished : Stream} (done : finish level s = .ok finished) :
    finished.name = s.name := by
  unfold finish at done
  split at done
  · next repaired =>
    cases done
    have name := (if 1 ≤ level then s.optimize else s).name_repairUpTo
      (2 * (if 1 ≤ level then s.optimize else s).branchCount + 1)
    rw [Stream.repair] at repaired
    rw [repaired] at name
    rw [name]
    split
    · exact s.name_optimizeUpTo _
    · rfl
  · cases done

theorem finish_lasting {P : List Line → Prop} (lasting : Lasting P) {level : Int64}
    {s finished : Stream} (done : finish level s = .ok finished) (holds : P s.lines) :
    P finished.lines := by
  have optimized : P (if 1 ≤ level then s.optimize else s).lines := by
    split
    · exact lasting.drops (s.drops_optimizeUpTo _) holds
    · exact holds
  have kept := lasting.repairUpTo (2 * (if 1 ≤ level then s.optimize else s).branchCount + 1) _
    optimized
  unfold finish at done
  split at done
  · next repaired =>
    cases done
    rw [Stream.repair] at repaired
    rwa [repaired] at kept
  · cases done

theorem finish_keeps {level : Int64} {s finished : Stream} (done : finish level s = .ok finished) :
    finished.name = s.name ∧ callLines finished.lines = callLines s.lines :=
  ⟨finish_name done, finish_lasting (Code.spared_isCall.lasting _) done rfl⟩

namespace Lowering

open Code (Line callLines callLines_append callLines_eq_nil)
open Symbols (Function)

variable {name : String} {names : List String}

/-- The calls across banks after further ones are met. -/
def recorded (names known : List String) : List String :=
  names.foldl (fun known name => insertName name known) known

theorem recorded_append (first second known : List String) :
    recorded (first ++ second) known = recorded second (recorded first known) :=
  List.foldl_append

theorem mem_insertName {other : String} :
    name ∈ insertName other names ↔ name = other ∨ name ∈ names := by
  unfold insertName
  split
  · next known =>
    have inside : other ∈ names := by simpa using known
    refine ⟨.inr, ?_⟩
    rintro (rfl | among)
    · exact inside
    · exact among
  · exact Symbols.mem_insertBy

theorem mem_recorded {known : List String} :
    name ∈ recorded names known ↔ name ∈ names ∨ name ∈ known := by
  induction names generalizing known with
  | nil => simp [recorded]
  | cons first rest ih =>
    change name ∈ recorded rest (insertName first known) ↔ _
    rw [ih, mem_insertName, List.mem_cons]
    grind

section

variable {α β : Type}
variable {m : Gen α} {f : α → Gen β}

/-- The outcome of a step, with other lines and calls across banks in its context. -/
def withLog (code : List Line) (trampolines : List String) :
    EStateM.Result Failure Context α → EStateM.Result Failure Context α
  | .ok a c => .ok a { c with code, trampolines }
  | .error failure c => .error failure { c with code, trampolines }

/--
The step adds lines and records calls across banks without seeing those of before. If it goes
through, the call lines among its lines and the calls that it records are such ones.
-/
def Logs (P : Scope → α → List Line → List String → Prop) (m : Gen α) : Prop :=
  ∀ scope c, ∃ lines names,
    (∀ code trampolines, m scope { c with code, trampolines } =
      withLog (code ++ lines) (recorded names trampolines) (m scope c)) ∧
    ∀ a after, m scope c = .ok a after → P scope a (callLines lines) names

namespace Logs

variable {P : Scope → α → List Line → List String → Prop}
variable {R : Scope → β → List Line → List String → Prop} {m : Gen α} {f : α → Gen β}
  {Q : α → Scope → β → List Line → List String → Prop}

theorem mono {R : Scope → α → List Line → List String → Prop} (logs : Logs P m)
    (implies : ∀ scope a calls names, P scope a calls names → R scope a calls names) :
    Logs R m := by
  intro scope c
  obtain ⟨lines, names, blind, holds⟩ := logs scope c
  exact ⟨lines, names, blind, fun a after ok => implies scope a _ names (holds a after ok)⟩

theorem of_same (names : List String) (blind : ∀ scope c code trampolines,
      m scope { c with code, trampolines } = withLog code (recorded names trampolines) (m scope c))
    (holds : ∀ scope c a after, m scope c = .ok a after → P scope a [] names) : Logs P m := by
  intro scope c
  refine ⟨[], names, fun code trampolines => ?_, holds scope c⟩
  rw [List.append_nil]
  exact blind scope c code trampolines

theorem pure (a : α) :
    Logs (fun _ b calls names => b = a ∧ calls = [] ∧ names = []) (pure a : Gen α) := by
  refine of_same [] (fun _ _ _ _ => rfl) ?_
  rintro _ _ _ _ ⟨⟩
  exact ⟨rfl, rfl, rfl⟩

theorem fail (cause : Cause) : Logs P (fail cause : Gen α) :=
  of_same [] (fun _ _ _ _ => rfl) fun _ _ _ _ ok => by cases ok

theorem read :
    Logs (fun scope a calls names => a = scope ∧ calls = [] ∧ names = []) (read : Gen Scope) := by
  refine of_same [] (fun _ _ _ _ => rfl) ?_
  rintro _ _ _ _ ⟨⟩
  exact ⟨rfl, rfl, rfl⟩

theorem look {f : Context → Gen α} (blind : ∀ c b, f (c.against b) = f c)
    (second : ∀ c, Logs P (f c)) : Logs P (get >>= f) := by
  intro scope c
  obtain ⟨lines, names, same, holds⟩ := second c scope c
  refine ⟨lines, names, fun code trampolines => ?_, holds⟩
  have other : f { c with code, trampolines } = f c := blind c ⟨code, trampolines, c.pos⟩
  change f { c with code, trampolines } scope { c with code, trampolines } = _
  rw [other]
  exact same code trampolines

theorem check {p : Prop} [Decidable p] {cause : Cause} {rest : Unit → Gen α}
    (logs : ∀ u, Logs P (rest u)) :
    Logs P (if p then Lowering.fail cause >>= rest else rest ()) := by
  split
  · exact of_same [] (fun _ _ _ _ => rfl) fun _ _ _ _ ok => by cases ok
  · exact logs ()

theorem addLines (lines : List Line) :
    Logs (fun _ _ calls names => calls = callLines lines ∧ names = []) (addLines lines) :=
  fun _ _ => ⟨lines, [], fun _ _ => rfl, fun _ _ _ => ⟨rfl, rfl⟩⟩

theorem modify {f : Context → Context} (added : List String) (blind : ∀ c code trampolines,
      f { c with code, trampolines } =
        { f c with code, trampolines := recorded added trampolines }) :
    Logs (fun _ _ calls names => calls = [] ∧ names = added) (modify f : Gen Unit) := by
  refine of_same added (fun _ c code trampolines => ?_) fun _ _ _ _ _ => ⟨rfl, rfl⟩
  change EStateM.Result.ok () (f { c with code, trampolines }) = _
  rw [blind]
  rfl

theorem bind_of {Y : α → Prop} (yields : Yields Y m) (first : Logs P m)
    (second : ∀ a, Y a → Logs (Q a) (f a))
    (joined : ∀ scope a b calls more names others, P scope a calls names →
      Q a scope b more others → R scope b (calls ++ more) (names ++ others)) :
    Logs R (m >>= f) := by
  intro scope c
  obtain ⟨lines, names, blind, holds⟩ := first scope c
  have unfolds (c : Context) :
      (m >>= f) scope c = EStateM.bind (m scope) (fun a => f a scope) c := rfl
  cases run : m scope c with
  | error failure between =>
    refine ⟨lines, names, ?_, ?_⟩
    · intro code trampolines
      rw [unfolds, unfolds, EStateM.bind, EStateM.bind, blind, run]
      rfl
    · intro b after ok
      rw [unfolds, EStateM.bind, run] at ok
      cases ok
  | ok a between =>
    obtain ⟨more, others, same, further⟩ := second a (yields scope c a between run) scope between
    refine ⟨lines ++ more, names ++ others, ?_, ?_⟩
    · intro code trampolines
      rw [unfolds, unfolds, EStateM.bind, EStateM.bind, blind, run, recorded_append,
        ← List.append_assoc]
      exact same _ _
    · intro b after ok
      rw [unfolds, EStateM.bind, run] at ok
      rw [callLines_append]
      exact joined scope a b _ _ names others (holds a between run) (further b after ok)

theorem bind (first : Logs P m) (second : ∀ a, Logs (Q a) (f a))
    (joined : ∀ scope a b calls more names others, P scope a calls names →
      Q a scope b more others → R scope b (calls ++ more) (names ++ others)) : Logs R (m >>= f) :=
  bind_of (Y := fun _ => True) (fun _ _ _ _ _ => trivial) first (fun a _ => second a) joined

theorem symbols :
    Logs (fun scope table calls names => table = scope.symbols ∧ calls = [] ∧ names = [])
      symbols := by
  refine .bind .read (fun scope => .pure scope.symbols) ?_
  rintro _ _ _ _ _ _ _ ⟨rfl, rfl, rfl⟩ ⟨rfl, rfl, rfl⟩
  exact ⟨rfl, rfl, rfl⟩

end Logs

/-- What holds of nothing, of calls and of sequences holds of every composed step. -/
theorem Composed.logs {may : Licence} {P : Scope → List Line → List String → Prop}
    (nothing : ∀ scope, P scope [] [])
    (append : ∀ scope calls more names others, P scope calls names → P scope more others →
      P scope (calls ++ more) (names ++ others)) (calls : ∀ name, may.calls name → ∀ argCount,
      Logs (fun scope _ => P scope) (Lowering.programCall name argCount))
    (composed : Composed may m) : Logs (fun scope _ => P scope) m := by
  have silent {m : Gen Unit} (logs : Logs (fun _ _ calls names => calls = [] ∧ names = []) m) :
      Logs (fun scope _ => P scope) m := by
    refine logs.mono ?_
    rintro scope _ _ _ ⟨rfl, rfl⟩
    exact nothing scope
  induction composed with
  | pure a =>
    refine (Logs.pure a).mono ?_
    rintro scope _ _ _ ⟨-, rfl, rfl⟩
    exact nothing scope
  | bind_of yields _ _ first second =>
    refine Logs.bind_of yields first second ?_
    intro scope _ _ calls more names others begun ended
    exact append scope calls more names others begun ended
  | fail cause => exact .fail cause
  | ask blind _ second =>
    refine Logs.read.bind second ?_
    rintro _ _ _ _ _ _ _ ⟨-, rfl, rfl⟩ holds
    exact holds
  | look blind _ second => exact .look blind second
  | modify blind => exact silent (.modify [] (log_of_blind blind))
  | moveTo => exact silent (.modify [] fun _ _ _ => rfl)
  | @addLines lines plain =>
    refine (Logs.addLines lines).mono ?_
    rintro scope _ _ _ ⟨rfl, rfl⟩
    rw [callLines_eq_nil.mpr plain]
    exact nothing scope
  | programCall called argCount => exact calls _ called argCount

/-- The step adds no calls and records none. -/
def IsPlain (m : Gen α) : Prop :=
  Logs (fun _ _ calls names => calls = [] ∧ names = []) m

theorem Composed.isPlain (composed : Composed ⟨fun _ => False, False⟩ m) : IsPlain m := by
  refine composed.logs (P := fun _ calls names => calls = [] ∧ names = []) ?_ ?_ ?_
  · exact fun _ => ⟨rfl, rfl⟩
  · rintro _ _ _ _ _ ⟨rfl, rfl⟩ ⟨rfl, rfl⟩
    exact ⟨rfl, rfl⟩
  · exact fun _ called => called.elim

theorem Built.isPlain (built : Built ⟨fun _ => False, False⟩ false [] (fun _ => True) m) :
    IsPlain m :=
  built.composed.isPlain

variable {P : Scope → β → List Line → List String → Prop}

theorem IsPlain.then (first : IsPlain m) (second : ∀ a, Logs P (f a)) : Logs P (m >>= f) := by
  refine first.bind second ?_
  rintro _ _ _ _ _ _ _ ⟨rfl, rfl⟩ holds
  exact holds

theorem Logs.thenPlain {P : Scope → List Line → List String → Prop}
    (first : Logs (fun scope _ => P scope) m) (second : ∀ a, IsPlain (f a)) :
    Logs (fun scope _ => P scope) (m >>= f) := by
  refine first.bind second ?_
  rintro scope _ _ calls _ names _ holds ⟨rfl, rfl⟩
  rw [List.append_nil, List.append_nil]
  exact holds

end

/--
Every call goes to a function that is called, or to its trampoline, which is then recorded; what is
recorded is called from bank 0 through a trampoline.
-/
structure Linked (callees : String → Prop) (scope : Scope) (calls : List Line)
    (names : List String) : Prop where
  targets : ∀ i, .instruction i ∈ calls →
    ∃ f, callees f.name ∧ scope.symbols.getFunction? f.name = some f ∧
      (i.operand = f.name ∨ i.operand = trampolineName f.name ∧ f.name ∈ names)
  stubs : ∀ name ∈ names, ∃ f, scope.symbols.getFunction? name = some f ∧ f.bank ≠ 0 ∧
    scope.function.bank = 0 ∧ ∃ i, .instruction i ∈ calls ∧ i.operand = trampolineName name

namespace Linked

variable {callees : String → Prop} {scope : Scope}

theorem nothing : Linked callees scope [] [] where
  targets i inside := by cases inside
  stubs name inside := by cases inside

theorem append {calls more : List Line} {names others : List String}
    (first : Linked callees scope calls names) (second : Linked callees scope more others) :
    Linked callees scope (calls ++ more) (names ++ others) where
  targets i inside := by
    rcases List.mem_append.mp inside with early | late
    · obtain ⟨f, called, found, direct | ⟨through, listed⟩⟩ := first.targets i early
      · exact ⟨f, called, found, .inl direct⟩
      · exact ⟨f, called, found, .inr ⟨through, List.mem_append_left _ listed⟩⟩
    · obtain ⟨f, called, found, direct | ⟨through, listed⟩⟩ := second.targets i late
      · exact ⟨f, called, found, .inl direct⟩
      · exact ⟨f, called, found, .inr ⟨through, List.mem_append_right _ listed⟩⟩
  stubs name inside := by
    rcases List.mem_append.mp inside with early | late
    · obtain ⟨f, found, far, home, i, listed, through⟩ := first.stubs name early
      exact ⟨f, found, far, home, i, List.mem_append_left _ listed, through⟩
    · obtain ⟨f, found, far, home, i, listed, through⟩ := second.stubs name late
      exact ⟨f, found, far, home, i, List.mem_append_right _ listed, through⟩

end Linked

/-- A call goes to the function itself, or from bank 0 to a trampoline that is recorded. -/
inductive Directed (f : Function) (scope : Scope) : (label : String) → (names : List String) → Prop
  where
  | direct : Directed f scope f.name []
  | through (far : f.bank ≠ 0) (home : scope.function.bank = 0) :
      Directed f scope (trampolineName f.name) [f.name]

theorem logs_callTarget (f : Function) :
    Logs (fun scope label calls names => calls = [] ∧ Directed f scope label names)
      (callTarget f) := by
  have through : Logs (fun _ label calls names =>
      label = trampolineName f.name ∧ calls = [] ∧ names = [f.name]) (do
        modify fun c => { c with trampolines := insertName f.name c.trampolines }
        pure (trampolineName f.name)) := by
    refine .bind (.modify [f.name] fun _ _ _ => rfl) (fun _ => .pure _) ?_
    rintro _ _ _ _ _ _ _ ⟨rfl, rfl⟩ ⟨rfl, rfl, rfl⟩
    exact ⟨rfl, rfl, rfl⟩
  have chosen (outer : Scope) : Logs (fun scope label calls names => outer = scope →
      calls = [] ∧ Directed f scope label names)
      (if f.bank = outer.function.bank ∨ f.bank = 0 then pure f.name
      else if outer.function.bank = 0 then do
        modify fun c => { c with trampolines := insertName f.name c.trampolines }
        pure (trampolineName f.name)
      else fail (.farCall f.name f.bank outer.function.bank)) := by
    split
    · refine (Logs.pure f.name).mono ?_
      rintro _ _ _ _ ⟨rfl, rfl, rfl⟩ -
      exact ⟨rfl, .direct⟩
    · next far =>
      split
      · next home =>
        refine through.mono ?_
        rintro _ _ _ _ ⟨rfl, rfl, rfl⟩ rfl
        exact ⟨rfl, .through (fun near => far (.inr near)) home⟩
      · exact .fail _
  refine .bind .read chosen ?_
  rintro _ _ _ _ _ _ _ ⟨same, rfl, rfl⟩ chosen
  exact chosen same

theorem logs_emit_jsr (label : String) :
    Logs (fun _ _ calls names => names = [] ∧ ∃ i, i.operand = label ∧ calls = [.instruction i])
      (emit .jsr (.label label)) := by
  have looks : IsPlain symbols := Logs.symbols.mono fun _ _ _ _ => And.right
  refine looks.then fun table => Built.inHigh.isPlain.then fun high => ?_
  split
  · exact .fail _
  · next addressed =>
    cases addressed
    split
    · exact .fail _
    · next i found =>
      obtain ⟨row, -, rfl⟩ := Option.map_eq_some_iff.mp found
      refine Logs.thenPlain (P := fun _ calls names => names = [] ∧
        ∃ i, i.operand = label ∧ calls = [.instruction i]) ?_ fun _ => Built.isPlain ?_
      · refine (Logs.addLines _).mono ?_
        rintro _ _ _ _ ⟨rfl, rfl⟩
        exact ⟨rfl, _, rfl, rfl⟩
      · exact .ite (.bind (.setScratchInUse _) fun _ => .track _ _) (.track _ _)

theorem logs_callFunction {callees : String → Prop} {f : Function} (called : callees f.name) :
    Logs (fun scope _ calls names => scope.symbols.getFunction? f.name = some f →
      Linked callees scope calls names) (callFunction f) := by
  have rest (label : String) : Logs (fun _ _ calls names =>
      names = [] ∧ ∃ i, i.operand = label ∧ calls = [.instruction i]) (do
        let outer ← accInUse
        save outer
        emit .jsr (.label label)
        if f.returns then restore outer f.signed
        else do
          if outer then emitImplied .pla
          return .nothing) := by
    refine Built.accInUse.isPlain.then fun outer => (Built.save outer).isPlain.then fun _ => ?_
    refine (logs_emit_jsr label).thenPlain fun _ => Built.isPlain ?_
    refine .ite (.restore outer f.signed) <| .ite ?_ (.pure _)
    exact .bind (.emitImplied rfl rfl) fun _ => .pure _
  refine (logs_callTarget f).bind rest ?_
  rintro scope label _ _ _ names _ ⟨rfl, directed⟩ ⟨rfl, i, target, rfl⟩ found
  rw [List.append_nil, List.nil_append]
  cases directed with
  | direct =>
    refine ⟨?_, fun name inside => by cases inside⟩
    intro j inside
    cases List.mem_singleton.mp inside
    exact ⟨f, called, found, .inl target⟩
  | through far home =>
    refine ⟨?_, ?_⟩
    · intro j inside
      cases List.mem_singleton.mp inside
      exact ⟨f, called, found, .inr ⟨target, List.mem_singleton_self _⟩⟩
    · intro name inside
      rw [List.mem_singleton.mp inside]
      exact ⟨f, found, far, home, i, List.mem_singleton_self _, target⟩

theorem returnedHigh_isPlain (f : Function) : IsPlain (returnedHigh f) :=
  Built.isPlain (.ite (.pure _) <| .ite (.fail _) (.pure _))

/-- The calls of a call go to the function that has the name, or to its trampoline. -/
theorem logs_programCall {callees : String → Prop} (called : callees name) (argCount : Nat) :
    Logs (fun scope _ => Linked callees scope) (programCall name argCount) := by
  refine Logs.symbols.bind (Q := fun table scope _ calls names => table = scope.symbols →
    Linked callees scope calls names) (fun table => ?_) ?_
  · split
    · exact .fail _
    · next f found =>
      have named : f.name = name := by simpa using List.find?_some found
      subst named
      refine Logs.check fun _ => Logs.check fun _ => Built.inHigh.isPlain.then fun high => ?_
      split
      · refine (returnedHigh_isPlain f).mono ?_
        rintro _ _ _ _ ⟨rfl, rfl⟩ -
        exact .nothing
      · refine (logs_callFunction called).mono ?_
        rintro scope _ _ _ linked rfl
        exact linked found
  · rintro _ _ _ _ _ _ _ ⟨same, rfl, rfl⟩ linked
    exact linked same

theorem Composed.logs_linked {α : Type} {may : Licence} {m : Gen α} (composed : Composed may m) :
    Logs (fun scope _ => Linked may.calls scope) m :=
  composed.logs (fun _ => .nothing) (fun _ _ _ _ _ first second => first.append second)
    fun _ called argCount => logs_programCall called argCount

theorem Composed.appends {α : Type} {may : Licence} {m : Gen α} {scope : Scope} {c d : Context}
    {a : α} (composed : Composed may m) (ok : m scope c = .ok a d) :
    ∃ lines, d.code = c.code ++ lines := by
  obtain ⟨lines, names, blind, -⟩ := composed.logs_linked scope c
  have same : m scope c = withLog (c.code ++ lines) (recorded names c.trampolines) (m scope c) :=
    blind c.code c.trampolines
  rw [ok] at same
  injection same with _ same
  exact ⟨lines, congrArg Context.code same⟩

/-- The code of a function does not depend on the calls across banks that were met before it. -/
theorem logs_function (f : Function) :
    Logs (fun scope _ => Linked (· ∈ callsOf f) scope) (function f) :=
  (composed_function f).logs_linked

end Lowering

end Backend6502
