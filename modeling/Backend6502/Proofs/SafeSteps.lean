import Backend6502.Lowering.Call
import Backend6502.Proofs.Deeds
import Backend6502.Proofs.FreshLabels
import Backend6502.Proofs.Generation
import Backend6502.Proofs.Targets

/-!
# Safe steps

A step of code generation is composed of steps that neither see the lines so far, the calls across
banks that were met and the position in the source, nor change them in other ways than these: lines
are added, a function of the program is called, another statement is entered.

A step is safe if it is free of defects, every branch and jump that it emits goes to a label that it
places or to one of the targets that are still to be placed by the steps around it, and the labels
that it places carry numbers that it took itself (`Safe`). Inside a construct a step may also place
labels that the construct answers for (`Places`): those of a number taken before, or of the source.
-/

namespace Backend6502

def Symbols.Function.outline (f : Function) : Function :=
  { f with body := none }

def Symbols.Table.outline (t : Table) : Table :=
  { t with functions := t.functions.map Function.outline }

namespace Lowering

open Code (Line)
open Source (Expr)
open Symbols (Table)

section Outline

variable (t : Table)

@[simp] theorem getVariable?_outline (name : String) :
    t.outline.getVariable? name = t.getVariable? name :=
  rfl

@[simp] theorem constant?_outline (e : Expr) : constant? t.outline e = constant? t e := by
  fun_induction constant? t e <;> simp_all [constant?, constantVariable?]

@[simp] theorem wideVariable?_outline (e : Expr) :
    wideVariable? t.outline e = wideVariable? t e := by
  unfold wideVariable?
  rfl

@[simp] theorem isSignedByte_outline (e : Expr) : isSignedByte t.outline e = isSignedByte t e := by
  unfold isSignedByte
  rfl

@[simp] theorem needsY_outline (e : Expr) : needsY t.outline e = needsY t e := by
  unfold needsY
  rfl

@[simp] theorem operand?_outline (high : Bool) (place : Place) :
    place.operand? t.outline high = place.operand? t high := by
  cases place <;> rfl

end Outline

def Scope.outline (scope : Scope) : Scope :=
  ⟨scope.symbols.outline, scope.function.outline⟩

/-- What a step may do besides adding lines. -/
structure Licence where
  /-- The functions that it may call. -/
  calls : String → Prop
  enters : Prop

/-- What is written down on the way and decides nothing. -/
structure Backdrop where
  code : List Line
  trampolines : List String
  pos : Int64

def Context.against (c : Context) (b : Backdrop) : Context :=
  { c with code := b.code, trampolines := b.trampolines, pos := b.pos }

/--
The step is composed of plain steps, of calls of such functions, and of the entries of statements.
-/
inductive Composed (may : Licence) : {α : Type} → Gen α → Prop where
  | pure {α : Type} (a : α) : Composed may (Pure.pure a : Gen α)
  | bind_of {α β : Type} {m : Gen α} {f : α → Gen β} {P : α → Prop} (yields : Yields P m)
      (first : Composed may m) (second : ∀ a, P a → Composed may (f a)) : Composed may (m >>= f)
  | fail {α : Type} (cause : Cause) : Composed may (fail cause : Gen α)
  /-- A step that depends on the symbols and the function, but not on bodies of functions. -/
  | ask {β : Type} {f : Scope → Gen β} (blind : ∀ scope : Scope, f scope.outline = f scope)
      (second : ∀ scope, Composed may (f scope)) : Composed may (read >>= f)
  /-- A step that depends on the context, but not on its backdrop. -/
  | look {β : Type} {f : Context → Gen β} (blind : ∀ c b, f (c.against b) = f c)
      (second : ∀ c, Composed may (f c)) : Composed may (get >>= f)
  | modify {f : Context → Context} (blind : ∀ c b, f (c.against b) = (f c).against b) :
      Composed may (modify f : Gen Unit)
  | moveTo (enters : may.enters) (pos : Int64) :
      Composed may (modify fun c => { c with pos } : Gen Unit)
  | addLines {lines : List Line} (plain : ∀ line ∈ lines, line.isCall = false) :
      Composed may (addLines lines)
  | programCall {name : String} (called : may.calls name) (argCount : Nat) :
      Composed may (programCall name argCount)

section

variable {f : Context → Context}
variable (blind : ∀ c b, f (c.against b) = (f c).against b) (c : Context)

include blind c

/-- A change that does not see the lines so far leaves them as they are. -/
theorem code_of_blind : (f c).code = c.code := by
  have same := congrArg Context.code (blind c ⟨c.code, c.trampolines, c.pos⟩)
  exact same

theorem log_of_blind (code : List Line) (trampolines : List String) :
    f { c with code, trampolines } = { f c with code, trampolines } := by
  have kept : (f c).pos = c.pos := by
    have same := congrArg Context.pos (blind c ⟨c.code, c.trampolines, c.pos⟩)
    exact same
  have moved : f { c with code, trampolines } = (f c).against ⟨code, trampolines, c.pos⟩ :=
    blind c ⟨code, trampolines, c.pos⟩
  rw [moved, ← kept]
  rfl

end

namespace Composed

variable {α β : Type} {may : Licence}

theorem bind {m : Gen α} {f : α → Gen β} (first : Composed may m)
    (second : ∀ a, Composed may (f a)) : Composed may (m >>= f) :=
  .bind_of (fun _ _ _ _ _ => trivial) first fun a (_ : True) => second a

theorem ite {p : Prop} [Decidable p] {m n : Gen α} (yes : Composed may m) (no : Composed may n) :
    Composed may (if p then m else n) :=
  iteInduction (fun _ => yes) fun _ => no

theorem seq {m : Gen α} {n : Gen β} (first : Composed may m) (second : Composed may n) :
    Composed may (m >>= fun _ => n) :=
  .bind first fun _ => second

theorem nextFor : Composed may nextFor :=
  .seq (.modify fun _ _ => rfl) <| .look (fun _ _ => rfl) fun _ => .pure _

theorem nextIf : Composed may nextIf :=
  .seq (.modify fun _ _ => rfl) <| .look (fun _ _ => rfl) fun _ => .pure _

theorem nextWhile : Composed may nextWhile :=
  .seq (.modify fun _ _ => rfl) <| .look (fun _ _ => rfl) fun _ => .pure _

theorem symbols {f : Table → Gen β} (blind : ∀ t : Table, f t.outline = f t)
    (second : ∀ t, Composed may (f t)) : Composed may (symbols >>= f) :=
  ask (fun scope => blind scope.symbols) fun scope => second scope.symbols

end Composed

end Lowering

end Backend6502

namespace Backend6502.Lowering

open Code (Line Instruction Aimed Listed labelNames)
open Cpu (Mnemonic Mode)

variable {labels : Nat → List Label} {m : Mnemonic} {mode : Mode} {place : Place} {operand : String}

/--
The lines that were added to a context are aimed and place their own labels, and their instructions
are from the table. The exits stay, and so does the pass for low bytes.
-/
structure Grows (own : List String) (targets : String → Prop) (c after : Context) : Prop where
  code : ∃ lines, after.code = c.code ++ lines ∧ Aimed targets lines ∧ own ⊆ labelNames lines
  exits : after.exits = c.exits
  low : c.high = false → after.high = false
  labelled : Labelled own c after
  listed : Listed c.code → Listed after.code

namespace Grows

variable {own others : List String} {targets : String → Prop} {c d e : Context}

theorem plain {lines : List Line} (code : d.code = c.code ++ lines) (aimed : Aimed targets lines)
    (none : labelNames lines = []) (listed : Listed lines) (exits : d.exits = c.exits)
    (low : c.high = false → d.high = false) (counted : Counted c d) : Grows [] targets c d :=
  ⟨⟨lines, code, aimed, List.nil_subset _⟩, exits, low, .plain code none counted,
    fun before => code ▸ before.append listed⟩

theorem of_eq (code : d.code = c.code) (exits : d.exits = c.exits)
    (low : c.high = false → d.high = false) (counted : Counted c d) : Grows [] targets c d :=
  plain (code.trans (List.append_nil _).symm) .nil rfl (fun _ inside => by cases inside) exits low
    counted

theorem refl (c : Context) : Grows [] targets c c :=
  of_eq rfl rfl id (.of_eq rfl rfl rfl)

/-- A step in one of the passes grows the context as a step outside of it does. -/
theorem inPass {high after : Bool} (grows : Grows own targets { c with high } d)
    (low : c.high = false → after = false) : Grows own targets c { d with high := after } :=
  ⟨grows.code, grows.exits, low, grows.labelled.congr ⟨rfl, rfl, rfl, rfl⟩ ⟨rfl, rfl, rfl, rfl⟩,
    grows.listed⟩

theorem trans (first : Grows own targets c d) (second : Grows others targets d e) :
    Grows (own ++ others) targets c e := by
  obtain ⟨lines, code, aimed, placed⟩ := first.code
  obtain ⟨more, further, alsoAimed, alsoPlaced⟩ := second.code
  refine ⟨⟨lines ++ more, ?_, aimed.append alsoAimed, ?_⟩, second.exits.trans first.exits,
    second.low ∘ first.low, first.labelled.trans second.labelled, second.listed ∘ first.listed⟩
  · rw [further, code, List.append_assoc]
  · rw [Code.labelNames_append]
    exact List.append_subset.mpr ⟨List.subset_append_of_subset_left _ placed,
      List.subset_append_of_subset_right _ alsoPlaced⟩

end Grows

/-- Do the exits of the loops and switches around go to targets? -/
def Leads (targets : String → Prop) (exits : List Exits) : Prop :=
  ∀ exit ∈ exits, targets exit.leave ∧ ∀ label, exit.next = some label → targets label

theorem Leads.mono {targets others : String → Prop} {exits : List Exits}
    (leads : Leads targets exits) (more : ∀ label, targets label → others label) :
    Leads others exits :=
  fun exit inside => ⟨more _ (leads exit inside).1,
    fun label next => more label ((leads exit inside).2 label next)⟩

/--
A step without defects that places its own labels and leaves nothing unplaced but the targets.
-/
def Places {α : Type} (own : List String) (targets : String → Prop) (m : Gen α) : Prop :=
  ∀ scope c, Leads targets c.exits → Ensures m scope c fun _ after => Grows own targets c after

/-- A step that places no labels but those of the numbers that it takes. -/
def Safe {α : Type} (targets : String → Prop) (m : Gen α) : Prop :=
  Places [] targets m

namespace Places

variable {α β : Type} {own others : List String} {targets : String → Prop}
variable {m : Gen α} {f : α → Gen β} {P : α → Prop} {p : Prop}

theorem bind_ensured (first : ∀ scope c, Leads targets c.exits →
      Ensures m scope c fun a after => P a ∧ Grows own targets c after)
    (second : ∀ a, P a → Places others targets (f a)) :
    Places (own ++ others) targets (m >>= f) := by
  intro scope c leads
  rw [ensures_bind]
  refine (first scope c leads).mono fun a after step => ?_
  obtain ⟨outcome, grows⟩ := step
  have further : Leads targets after.exits := by
    rw [grows.exits]
    exact leads
  exact (second a outcome scope after further).mono fun _ _ => grows.trans

theorem join (first : Places own targets m) (second : ∀ a, Places others targets (f a)) :
    Places (own ++ others) targets (m >>= f) :=
  bind_ensured (fun scope c leads => (first scope c leads).mono fun _ _ grows =>
    ⟨trivial, grows⟩) fun a (_ : True) => second a

/-- All labels are placed by the second step, which may rely on what the first one yields. -/
theorem later_of (yields : Yields P m) (first : Safe targets m)
    (second : ∀ a, P a → Places own targets (f a)) : Places own targets (m >>= f) :=
  bind_ensured (fun scope c leads => (first scope c leads).imp_of_ok fun a after ok grows =>
    ⟨yields scope c a after ok, grows⟩) second

theorem later (first : Safe targets m) (second : ∀ a, Places own targets (f a)) :
    Places own targets (m >>= f) :=
  join first second

theorem first (places : Places own targets m) (second : ∀ a, Safe targets (f a)) :
    Places own targets (m >>= f) := by
  have both := join places second
  rwa [List.append_nil] at both

theorem perm (places : Places own targets m) (same : own.Perm others) :
    Places others targets m := by
  intro scope c leads
  refine (places scope c leads).mono fun _ after grows => ?_
  obtain ⟨lines, code, aimed, placed⟩ := grows.code
  exact ⟨⟨lines, code, aimed, fun name inside => placed (same.mem_iff.mpr inside)⟩, grows.exits,
    grows.low, grows.labelled.perm same, grows.listed⟩

theorem fail (cause : Cause) : Places own targets (fail cause : Gen α) :=
  fun _ _ _ => ensures_fail

theorem ite [Decidable p] {n : Gen α} (yes : Places own targets m) (no : Places own targets n) :
    Places own targets (if p then m else n) :=
  iteInduction (fun _ => yes) fun _ => no

theorem check [Decidable p] {cause : Cause} {rest : Unit → Gen β}
    (places : Places own targets (rest ())) :
    Places own targets (if p then Lowering.fail cause >>= rest else rest ()) :=
  .ite (later (fun _ _ _ => ensures_fail) fun _ => places) places

theorem putLabel (name : String) : Places [name] targets (putLabel name) :=
  fun _ _ _ => ⟨⟨[.label name], rfl, fun _ inside => by simp at inside, fun _ inside => inside⟩,
    rfl, id, .label rfl (.of_eq rfl rfl rfl), fun before =>
      before.append fun _ inside => by simp at inside⟩

theorem labelled (name : String) {f : Unit → Gen β} (rest : ∀ u, Places own targets (f u)) :
    Places (name :: own) targets (Lowering.putLabel name >>= f) :=
  join (putLabel name) rest

/-- Targets that the step itself places may be gone to within it. -/
theorem enclose {inner : String → Prop}
    (places : Places own (fun label => inner label ∨ targets label) m)
    (mine : ∀ label, inner label → label ∈ own) : Places own targets m := by
  intro scope c leads
  refine (places scope c (leads.mono fun _ => .inr)).mono fun a after grows => ?_
  obtain ⟨lines, code, aimed, placed⟩ := grows.code
  exact ⟨⟨lines, code, aimed.enclose fun label inside => placed (mine label inside), placed⟩,
    grows.exits, grows.low, grows.labelled, grows.listed⟩

end Places

def Takes (next : Gen Nat) (labels : Nat → List Label) : Prop :=
  ∀ scope c, Ensures next scope c fun n after => after.code = c.code ∧ after.exits = c.exits ∧
    after.high = c.high ∧ Counted c after ∧ ∀ l ∈ labels n, l.Within c after

/-- The labels of a number that was taken may be placed and gone to by the steps after that. -/
theorem Places.opening {α : Type} {own : List String} {targets : String → Prop} {next : Gen Nat}
    (labels : Nat → List Label) {f : Nat → Gen α} (takes : Takes next labels)
    (distinct : ∀ n, (labels n).Nodup)
    (places : ∀ n, Places ((labels n).map Label.text ++ own)
      (fun label => label ∈ (labels n).map Label.text ∨ targets label) (f n)) :
    Places own targets (next >>= f) := by
  intro scope c leads
  rw [ensures_bind]
  refine (takes scope c).mono fun n after taken => ?_
  obtain ⟨same, exits, high, counted, within⟩ := taken
  have enclosed := (places n).enclose fun label inside => List.mem_append_left _ inside
  have further : Leads targets after.exits := by
    rw [exits]
    exact leads
  refine (enclosed scope after further).mono fun _ final grows => ?_
  obtain ⟨lines, code, aimed, placed⟩ := grows.code
  refine ⟨⟨lines, by rw [code, same], aimed, fun name inside => ?_⟩, grows.exits.trans exits,
    high ▸ grows.low, .opening (distinct n) within same counted grows.labelled, fun before =>
      grows.listed (same ▸ before)⟩
  exact placed (List.mem_append_right _ inside)

theorem takes_nextFor
    (within : ∀ c : Context, ∀ l ∈ labels (c.forCount + 1), l.Within c c.countFor) :
    Takes nextFor labels :=
  fun _ c => ⟨rfl, rfl, rfl, ⟨Nat.le_succ _, Nat.le_refl _, Nat.le_refl _⟩, within c⟩

theorem takes_nextIf (within : ∀ c : Context, ∀ l ∈ labels (c.ifCount + 1), l.Within c c.countIf) :
    Takes nextIf labels :=
  fun _ c => ⟨rfl, rfl, rfl, ⟨Nat.le_refl _, Nat.le_succ _, Nat.le_refl _⟩, within c⟩

theorem takes_nextWhile
    (within : ∀ c : Context, ∀ l ∈ labels (c.whileCount + 1), l.Within c c.countWhile) :
    Takes nextWhile labels :=
  fun _ c => ⟨rfl, rfl, rfl, ⟨Nat.le_refl _, Nat.le_refl _, Nat.le_succ _⟩, within c⟩

namespace Safe

variable {α : Type} {targets : String → Prop}

theorem pure (a : α) : Safe targets (Pure.pure a) :=
  fun _ c _ => .refl c

/-- A change of the context that adds no lines. -/
theorem modify {f : Context → Context} (code : ∀ c, (f c).code = c.code)
    (exits : ∀ c, (f c).exits = c.exits) (low : ∀ c, c.high = false → (f c).high = false)
    (counted : ∀ c, Counted c (f c)) : Safe targets (modify f) :=
  fun _ c _ => .of_eq (code c) (exits c) (low c) (counted c)

theorem addLines {lines : List Line} (aimed : Aimed targets lines) (none : labelNames lines = [])
    (listed : Listed lines) : Safe targets (addLines lines) :=
  fun _ _ _ => .plain rfl aimed none listed rfl id (.of_eq rfl rfl rfl)

end Safe

/--
A step that places its own labels, is composed of calls of such functions and adds only quiet lines
where it is said to be quiet.
-/
structure Built {α : Type} (may : Licence) (quiet : Bool) (own : List String)
    (targets : String → Prop) (m : Gen α) : Prop where
  places : Places own targets m
  composed : Composed may m
  adds : quiet = true → Quiet m

/-- A step that is not said to be quiet, and places no labels that others answer for. -/
abbrev Loud {α : Type} (may : Licence) (targets : String → Prop) (m : Gen α) : Prop :=
  Built may false [] targets m

namespace Built

variable {α β : Type} {may : Licence} {quiet : Bool} {own others : List String}
  {targets : String → Prop}

section Composition

variable {m : Gen α} {f : α → Gen β} {p : Prop} {next : Gen Nat}

theorem pure (a : α) : Built may quiet [] targets (Pure.pure a) :=
  ⟨Safe.pure a, .pure a, fun _ => .pure a⟩

theorem fail (cause : Cause) : Built may quiet own targets (fail cause : Gen α) :=
  ⟨.fail cause, .fail cause, fun _ => .fail cause⟩

theorem bind_of {P : α → Prop} (yields : Yields P m) (first : Built may quiet [] targets m)
    (second : ∀ a, P a → Built may quiet own targets (f a)) :
    Built may quiet own targets (m >>= f) where
  places := .later_of yields first.places fun a holds => (second a holds).places
  composed := .bind_of yields first.composed fun a holds => (second a holds).composed
  adds silent := .bind_of yields (first.adds silent) fun a holds => (second a holds).adds silent

/-- All labels are placed by the second step. -/
theorem bind (first : Built may quiet [] targets m)
    (second : ∀ a, Built may quiet own targets (f a)) :
    Built may quiet own targets (m >>= f) :=
  .bind_of (fun _ _ _ _ _ => trivial) first fun a (_ : True) => second a

theorem join (first : Built may quiet own targets m)
    (second : ∀ a, Built may quiet others targets (f a)) :
    Built may quiet (own ++ others) targets (m >>= f) where
  places := .join first.places fun a => (second a).places
  composed := .bind first.composed fun a => (second a).composed
  adds silent := .bind (first.adds silent) fun a => (second a).adds silent

theorem first (built : Built may quiet own targets m)
    (second : ∀ a, Built may quiet [] targets (f a)) :
    Built may quiet own targets (m >>= f) := by
  have both := join built second
  rwa [List.append_nil] at both

theorem perm (built : Built may quiet own targets m) (same : own.Perm others) :
    Built may quiet others targets m :=
  ⟨built.places.perm same, built.composed, built.adds⟩

/-- What makes a step quiet may be said apart. -/
theorem of_loud (built : Built may false own targets m) (adds : quiet = true → Quiet m) :
    Built may quiet own targets m :=
  ⟨built.places, built.composed, adds⟩

/-- Nothing is handed on to the second step, and it places all labels. -/
theorem seq {n : Gen β} (first : Built may quiet [] targets m)
    (second : Built may quiet own targets n) : Built may quiet own targets (m >>= fun _ => n) :=
  .bind first fun _ => second

theorem ite [Decidable p] {n : Gen α} (yes : Built may quiet own targets m)
    (no : Built may quiet own targets n) : Built may quiet own targets (if p then m else n) :=
  iteInduction (fun _ => yes) fun _ => no

theorem check [Decidable p] {cause : Cause} {rest : Unit → Gen β}
    (built : Built may quiet own targets (rest ())) :
    Built may quiet own targets (if p then Lowering.fail cause >>= rest else rest ()) :=
  .ite (.bind (.fail cause) fun _ => built) built

/-- A step that depends on the context, but not on its backdrop. -/
theorem look {f : Context → Gen β} (blind : ∀ c b, f (c.against b) = f c)
    (second : ∀ c, Built may quiet own targets (f c)) :
    Built may quiet own targets (get >>= f) where
  places := .later (fun _ c _ => .refl c) fun c => (second c).places
  composed := .look blind fun c => (second c).composed
  adds silent := .bind .get fun c => (second c).adds silent

/-- The labels of a number that was taken may be placed and gone to by the steps after that. -/
theorem openingWith (labels : Nat → List Label) {f : Nat → Gen α} (takes : Takes next labels)
    (counts : Composed may next) (distinct : ∀ n, (labels n).Nodup)
    (built : ∀ n, Built may false ((labels n).map Label.text ++ own)
      (fun label => label ∈ (labels n).map Label.text ∨ targets label) (f n)) :
    Built may false own targets (next >>= f) where
  places := .opening labels takes distinct fun n => (built n).places
  composed := .bind counts fun n => (built n).composed
  adds := nofun

/-- A construct that places the labels of the number that it takes, and no others. -/
theorem opening (labels : Nat → List Label) {f : Nat → Gen α} (takes : Takes next labels)
    (counts : Composed may next) (distinct : ∀ n, (labels n).Nodup)
    (built : ∀ n, Built may false ((labels n).map Label.text)
      (fun label => label ∈ (labels n).map Label.text ∨ targets label) (f n)) :
    Loud may targets (next >>= f) := by
  refine openingWith labels takes counts distinct fun n => ?_
  rw [List.append_nil]
  exact built n

end Composition

section Context

theorem modify {f : Context → Context} (exits : ∀ c, (f c).exits = c.exits)
    (high : ∀ c, (f c).high = c.high) (counted : ∀ c, Counted c (f c))
    (blind : ∀ c b, f (c.against b) = (f c).against b)
    (adds : quiet = true → ∀ c, (f c).deferred = c.deferred) :
    Built may quiet [] targets (modify f) where
  places := Safe.modify (code_of_blind blind) exits (fun c => (high c).trans) counted
  composed := .modify blind
  adds silent := .modify high (adds silent) (code_of_blind blind)

theorem ask {f : Scope → Gen β} (blind : ∀ scope : Scope, f scope.outline = f scope)
    (second : ∀ scope, Built may quiet own targets (f scope)) :
    Built may quiet own targets (read >>= f) where
  places := .later (fun _ c _ => .refl c) fun scope => (second scope).places
  composed := .ask blind fun scope => (second scope).composed
  adds silent := .bind .read fun scope => (second scope).adds silent

/-- A step that depends on the table, but not on bodies of functions. -/
theorem symbols {f : Symbols.Table → Gen β} (blind : ∀ t : Symbols.Table, f t.outline = f t)
    (second : ∀ t, Built may quiet own targets (f t)) :
    Built may quiet own targets (symbols >>= f) :=
  ask (fun scope => blind scope.symbols) fun scope => second scope.symbols

theorem inHigh : Built may quiet [] targets inHigh := .look (fun _ _ => rfl) fun _ => .pure _

theorem accInUse : Built may quiet [] targets accInUse := .look (fun _ _ => rfl) fun _ => .pure _

theorem setAccInUse (inUse : Bool) : Built may quiet [] targets (setAccInUse inUse) :=
  .modify (fun _ => rfl) (fun _ => rfl) (fun _ => .of_eq rfl rfl rfl) (fun _ _ => rfl)
    fun _ _ => rfl

theorem setScratchInUse (inUse : Bool) : Built may quiet [] targets (setScratchInUse inUse) :=
  .modify (fun _ => rfl) (fun _ => rfl) (fun _ => .of_eq rfl rfl rfl) (fun _ _ => rfl)
    fun _ _ => rfl

theorem setFlags (flags : Flags) : Built may quiet [] targets (setFlags flags) :=
  .modify (fun _ => rfl) (fun _ => rfl) (fun _ => .of_eq rfl rfl rfl) (fun _ _ => rfl)
    fun _ _ => rfl

theorem track (m : Mnemonic) (place : Place) : Built may quiet [] targets (track m place) :=
  .modify (fun _ => rfl) (fun _ => rfl) (fun _ => .of_eq rfl rfl rfl) (fun _ _ => rfl)
    fun _ _ => rfl

theorem nextIf : Built may quiet [] targets nextIf :=
  .seq
    (.modify (fun _ => rfl) (fun _ => rfl) (fun _ => ⟨Nat.le_refl _, Nat.le_succ _, Nat.le_refl _⟩)
      (fun _ _ => rfl) fun _ _ => rfl) <| .look (fun _ _ => rfl) fun _ => .pure _

theorem setLow : Loud may targets (setHigh false) where
  places := Safe.modify (fun _ => rfl) (fun _ => rfl) (fun _ _ => rfl) fun _ => .of_eq rfl rfl rfl
  composed := .modify fun _ _ => rfl
  adds := nofun

theorem withHigh {step : Gen α} (high : Bool) (built : Built may quiet [] targets step) :
    Built may quiet [] targets (withHigh high step) where
  places scope c leads := by
    simp only [Lowering.withHigh, Lowering.inHigh, Lowering.setHigh, ensures_bind, ensures_get,
      ensures_modify, ensures_pure]
    exact (built.places scope { c with high } leads).mono fun _ _ grows => grows.inPass id
  composed := .bind (.look (fun _ _ => rfl) fun _ => .pure _) fun _ =>
    .seq (.modify fun _ _ => rfl) <| .bind built.composed fun _ =>
      .seq (.modify fun _ _ => rfl) (.pure _)
  adds silent := .withHigh high (built.adds silent)

/-- A pass over the low or the high bytes, followed by steps that set the pass anew. -/
theorem pass {m : Gen α} {f : α → Gen β} (high : Bool) (first : Loud may targets m)
    (second : ∀ a, Built may false own targets (f a))
    (anew : ∀ a scope (c : Context), f a scope { c with high := false } = f a scope c) :
    Built may false own targets (setHigh high >>= fun _ => m >>= f) where
  places scope c leads := by
    simp only [Lowering.setHigh, ensures_bind, ensures_modify]
    refine (first.places scope { c with high } leads).mono fun a d grows => ?_
    have begun : Grows [] targets c { d with high := false } := grows.inPass fun _ => rfl
    have ended : Ensures (f a) scope d fun _ => Grows own targets { d with high := false } := by
      rw [Ensures, ← anew]
      exact (second a).places scope { d with high := false } (begun.exits ▸ leads)
    exact ended.mono fun _ _ => begun.trans
  composed := .seq (.modify fun _ _ => rfl) <| .bind first.composed fun a => (second a).composed
  adds := nofun

end Context

section Lines

variable {i : Instruction} {m : Mnemonic} {label : String}

theorem putLabel (name : String) : Built may false [name] targets (putLabel name) := by
  refine ⟨.putLabel name, .seq (.addLines ?_) <| .modify fun _ _ => rfl, nofun⟩
  intro line inside
  rw [List.mem_singleton.mp inside]
  rfl

theorem labelled (name : String) {f : Unit → Gen β}
    (rest : ∀ u, Built may false own targets (f u)) :
    Built may false (name :: own) targets (Lowering.putLabel name >>= f) :=
  join (putLabel name) rest

theorem addInstruction {count : Nat} (aimed : Aimed targets (List.replicate count (.instruction i)))
    (tabled : i.IsTabled) (other : (Line.instruction i).isCall = false) :
    Loud may targets (addLines (List.replicate count (.instruction i))) where
  places := Safe.addLines aimed (Code.labelNames_replicate _ _) (.replicate tabled count)
  composed := .addLines fun line inside => by rwa [List.eq_of_mem_replicate inside]
  adds := nofun

/-- An instruction of the table that is neither a branch nor a jump nor a call. -/
theorem addTimes {mode : Mode} (known : (Cpu.Encoding.find? m mode).isSome = true)
    (plain : (m == .jmp || m.isBranch) = false) (other : (m == .jsr) = false) (count : Nat)
    (operand : String) : Loud may targets (addTimes count m mode operand) := by
  obtain ⟨row, found⟩ := Option.isSome_iff_exists.mp known
  have built :
      Instruction.find? (.known m) mode operand = some (.ofRow (.known m) operand row) := by
    rw [Instruction.find?, Instruction.row?]
    simp [Code.Operation.entry?, found]
  unfold Lowering.addTimes
  rw [built]
  exact .addInstruction (.of_plain rfl plain count) (Instruction.isTabled_of_find? built) other

theorem emitByte (known : (Cpu.Encoding.find? m .immediate).isSome = true)
    (plain : (m == .jmp || m.isBranch) = false) (b : UInt8) :
    Loud may targets (emitByte m b) := by
  have other : (m == .jsr) = false := by cases m <;> first | rfl | cases known
  exact .bind (addTimes known plain other 1 _) fun _ => .track _ _

theorem emitImplied (known : (Cpu.Encoding.find? m .implied).isSome = true)
    (plain : (m == .jmp || m.isBranch) = false) :
    Loud may targets (emitImplied m) := by
  have other : (m == .jsr) = false := by cases m <;> first | rfl | cases known
  exact .bind (addTimes known plain other 1 _) fun _ => .track _ _

theorem addSteering (target : targets i.operand) (tabled : i.IsTabled)
    (other : (Line.instruction i).isCall = false) :
    Loud may targets (Lowering.addLines (List.replicate 1 (.instruction i))) := by
  refine .addInstruction (fun j inside _ => ?_) tabled other
  cases (List.mem_replicate.mp inside).2
  exact .inl target

theorem emitJump (target : targets label) : Loud may targets (emitJump label) :=
  addSteering (i := .jump label) target (Instruction.isTabled_jump label) rfl

theorem emitBranch (branches : m.isBranch = true) (target : targets label) :
    Loud may targets (emitBranch m label) := by
  have other : (m == .jsr) = false := by cases m <;> first | rfl | cases branches
  unfold Lowering.emitBranch addFixed Lowering.addTimes
  rw [Instruction.find?_branch m label branches]
  exact addSteering (i := .branch m label) target (Instruction.isTabled_branch branches label) other

end Lines

end Built

theorem isBranch_of_find? {row : Cpu.Encoding} (found : Cpu.Encoding.find? m mode = some row)
    (other : mode ≠ .relative) : m.isBranch = false := by
  cases m <;> first | rfl | (cases mode <;> first | exact absurd rfl other | cases found)

/-- An instruction of the table that is no jump. -/
theorem Safe.emit {targets : String → Prop} (other : (m == .jmp) = false) (place : Place) :
    Safe targets (emit m place) := by
  refine .later (fun _ c _ => .refl c) fun table => .later (fun _ c _ => .refl c) fun high => ?_
  split
  · exact .fail _
  · next mode operand addressed =>
    split
    · exact .fail _
    · next i found =>
      obtain ⟨row, listed, rfl⟩ := Option.map_eq_some_iff.mp found
      have plain : (m == .jmp || m.isBranch) = false := by
        rw [other, isBranch_of_find? listed (mode_of_operand? addressed).1, Bool.or_false]
      have tracked : Safe targets (track m place) :=
        .modify (fun _ => rfl) (fun _ => rfl) (fun _ => id) fun _ => .of_eq rfl rfl rfl
      refine .later (Safe.addLines (.of_plain rfl plain 1) rfl
        (.replicate (Instruction.isTabled_of_find? found) 1)) fun _ => .ite ?_ tracked
      exact .later (Safe.modify (fun _ => rfl) (fun _ => rfl) (fun _ => id) fun _ =>
        .of_eq rfl rfl rfl)
        fun _ => tracked

theorem isCall_of_find? {i : Instruction}
    (found : Instruction.find? (.known m) mode operand = some i) (other : (m == .jsr) = false) :
    (Line.instruction i).isCall = false := by
  obtain ⟨row, -, rfl⟩ := Option.map_eq_some_iff.mp found
  exact other

theorem store_plain (found : storeOf? place = some m) :
    (m == .jmp || m == .jsr) = false ∧ isStore m = true := by
  cases place <;> cases found <;> exact ⟨rfl, rfl⟩

namespace Built

variable {may : Licence} {quiet : Bool} {targets : String → Prop}

theorem emit {m : Mnemonic} (other : (m == .jmp || m == .jsr) = false) (place : Place) :
    Loud may targets (emit m place) := by
  obtain ⟨noJump, noCall⟩ := Bool.or_eq_false_iff.mp other
  refine ⟨Safe.emit noJump place, ?_, nofun⟩
  have tracked : Composed may (Lowering.track m place) := .modify fun _ _ => rfl
  refine .symbols (by simp) fun table =>
    .bind (.look (fun _ _ => rfl) fun _ => .pure _) fun high => ?_
  split
  · exact .fail _
  · split
    · exact .fail _
    · next i found =>
      refine .seq (.addLines ?_) ?_
      · intro line inside
        rw [List.mem_singleton.mp inside]
        exact isCall_of_find? found noCall
      · split
        · exact .seq (.modify fun _ _ => rfl) tracked
        · exact tracked

theorem emitTimes {m : Mnemonic} (other : (m == .jmp || m == .jsr) = false) (place : Place)
    (count : Nat) : Loud may targets (emitTimes m place count) := by
  induction count with
  | zero => exact .pure _
  | succ count ih => exact .seq (.emit other place) ih

section Quiet

variable {m : Mnemonic}

theorem mild (mild : isMild m = true) (place : Place) :
    Built may quiet [] targets (Lowering.emit m place) := by
  refine .of_loud (.emit ?_ place) fun _ => .mild mild place
  cases m <;> first | rfl | cases mild

theorem mildByte (known : (Cpu.Encoding.find? m .immediate).isSome = true) (mild : isMild m = true)
    (b : UInt8) : Built may quiet [] targets (Lowering.emitByte m b) := by
  refine .of_loud (.emitByte known ?_ b) fun _ => .mildByte mild b
  cases m <;> first | rfl | cases mild

theorem mildImplied (known : (Cpu.Encoding.find? m .implied).isSome = true)
    (mild : isMild m = true) : Built may quiet [] targets (Lowering.emitImplied m) := by
  refine .of_loud (.emitImplied known ?_) fun _ => .mildImplied mild
  cases m <;> first | rfl | cases mild

theorem loadIndex (b : UInt8) : Built may quiet [] targets (Lowering.emitByte .ldy b) :=
  .of_loud (.emitByte rfl rfl b) fun _ => .loadIndex b

theorem shiftAccumulator (shifts : m = .asl ∨ m = .lsr ∨ m = .ror) (signed : Bool) :
    Built may quiet [] targets (Lowering.emit m (.accumulator signed)) := by
  refine .of_loud (.emit ?_ _) fun _ => .shiftAccumulator shifts signed
  rcases shifts with rfl | rfl | rfl <;> rfl

theorem loadA (place : Place) : Built may quiet [] targets (loadA place) := by
  unfold Lowering.loadA
  split
  · exact .pure _
  · exact .mildImplied rfl rfl
  · exact .mildImplied rfl rfl
  all_goals first | exact .mild rfl _ | exact .fail _

theorem spill (place : Place) : Built may quiet [] targets (spill place) := by
  refine .look (fun _ _ => rfl) fun _ => .check ?_
  split
  · exact .pure _
  · next found =>
    obtain ⟨other, stores⟩ := store_plain found
    exact .seq (.of_loud (.emit other _) fun _ => .storeScratch stores _) <|
      .seq (.setScratchInUse _) (.pure _)

theorem save (needed : Bool) : Built may quiet [] targets (save needed) :=
  .ite (.mildImplied rfl rfl) (.pure _)

theorem restore (pushed signed : Bool) : Built may quiet [] targets (restore pushed signed) := by
  refine .ite (.look (fun _ _ => rfl) fun _ => .check ?_) (.pure _)
  exact .seq (.of_loud (.emit rfl _) fun _ => .storeScratch rfl _) <|
    .seq (.setScratchInUse _) <| .seq (.mildImplied rfl rfl) (.pure _)

end Quiet

theorem emitReturn : Loud may targets emitReturn :=
  .ask (fun _ => rfl) fun _ => .ite (.emitImplied rfl rfl) (.emitImplied rfl rfl)

end Built

/-- A quiet step that calls nothing, whatever the labels around it. -/
abbrev Hushed {α : Type} (m : Gen α) : Prop :=
  Built ⟨fun _ => False, False⟩ true [] (fun _ => True) m

end Backend6502.Lowering
