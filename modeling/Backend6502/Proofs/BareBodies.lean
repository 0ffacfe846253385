import Backend6502.Program.Load
import Backend6502.Proofs.CallLinks
import Backend6502.Proofs.WrittenTrees

/-!
# Bodies that are no blocks

A body that is a single statement gets a block with the place of this statement. Code generation
looks at no bodies of other functions (`Composed.outline`), so the program is loaded as with a block
that is written out, and its function fails alike or comes out alike (`generate_bare`), but for a
label of the statement. That one is placed for the block and again for the statement
(`bare_label_twice`).
-/

namespace Backend6502

open Code (Line Stream)
open Source (Stmt Block Loc)
open Program (FunctionRecord addFunctions)
open Symbols (Table Function)

namespace Lowering

/-- The step does not look at bodies of functions. -/
def Outlined {α : Type} (m : Gen α) : Prop :=
  ∀ scope c, m scope.outline c = m scope c

namespace Outlined

variable {α β : Type} {m n : Gen α}

theorem bind_of {f : α → Gen β} {P : α → Prop} (yields : Yields P m) (first : Outlined m)
    (second : ∀ a, P a → Outlined (f a)) : Outlined (m >>= f) := by
  intro scope c
  change EStateM.bind (m scope.outline) (fun a => f a scope.outline) c =
    EStateM.bind (m scope) (fun a => f a scope) c
  unfold EStateM.bind
  rw [first]
  cases run : m scope c with
  | ok a after => exact second a (yields scope c a after run) scope after
  | error failure after => rfl

theorem bind {f : α → Gen β} (first : Outlined m) (second : ∀ a, Outlined (f a)) :
    Outlined (m >>= f) :=
  bind_of (P := fun _ => True) (fun _ _ _ _ _ => trivial) first fun a _ => second a

theorem ite {p : Prop} [Decidable p] (yes : Outlined m) (no : Outlined n) :
    Outlined (if p then m else n) :=
  iteInduction (fun _ => yes) fun _ => no

theorem ask {f : Scope → Gen α} (blind : ∀ scope : Scope, f scope.outline = f scope)
    (second : ∀ scope, Outlined (f scope)) : Outlined (read >>= f) := by
  intro scope c
  change f scope.outline scope.outline c = f scope scope c
  rw [blind]
  exact second scope scope c

theorem callFunction (f : Function) : Outlined (callFunction f) := by
  have goes : Outlined (callTarget f) :=
    .ask (fun _ => rfl) fun _ => .ite (fun _ _ => rfl) (.ite (fun _ _ => rfl) fun _ _ => rfl)
  have restores (outer : Bool) : Outlined (restore outer f.signed) :=
    .ite (.bind (fun _ _ => rfl) fun _ => .ite (fun _ _ => rfl) fun _ _ => rfl) fun _ _ => rfl
  refine .bind goes fun _ => .bind (fun _ _ => rfl) fun outer => ?_
  refine .bind (.ite (fun _ _ => rfl) fun _ _ => rfl) fun _ => .bind (fun _ _ => rfl) fun _ => ?_
  exact .ite (restores outer) (.ite (fun _ _ => rfl) fun _ _ => rfl)

theorem programCall (name : String) (argCount : Nat) : Outlined (programCall name argCount) := by
  refine .ask (fun scope => ?_) fun scope => ?_
  · have found : scope.outline.symbols.getFunction? name =
        (scope.symbols.getFunction? name).map Function.outline := by
      unfold Table.getFunction?
      exact List.find?_map
    simp only [found]
    cases scope.symbols.getFunction? name <;> rfl
  · cases scope.symbols.getFunction? name with
    | none => exact fun _ _ => rfl
    | some f =>
      have rest : Outlined (do if ← inHigh then returnedHigh f else Lowering.callFunction f) :=
        .bind (fun _ _ => rfl) fun _ => .ite (.ite (fun _ _ => rfl)
          (.ite (fun _ _ => rfl) fun _ _ => rfl)) (callFunction f)
      exact .ite (fun _ _ => rfl) (.ite (fun _ _ => rfl) rest)

end Outlined

/-- Code generation does not look at bodies of functions that it is not given. -/
theorem Composed.outlined {α : Type} {may : Licence} {m : Gen α} (composed : Composed may m) :
    Outlined m := by
  induction composed with
  | pure | fail | modify | moveTo | addLines => exact fun _ _ => rfl
  | bind_of yields _ _ first second => exact .bind_of yields first second
  | ask blind _ second => exact .ask blind second
  | look _ _ second => exact fun scope c => second c scope c
  | programCall _ argCount => exact .programCall _ argCount

def single (s : Stmt) : Gen Unit := do
  stmts [s]
  if !endsInReturn [s] then emitReturn

theorem composed_single (s : Stmt) : Composed ⟨(· ∈ s.calls), True⟩ (single s) := by
  have body : Composed ⟨(· ∈ s.calls), True⟩ (stmts [s]) :=
    (built_stmts [s] (fun _ _ => trivial) (fun name inside => by
      simpa [Stmt.callsAll] using inside) : Built _ false _ (fun _ => True) _).composed
  refine .bind body fun _ => .ite ?_ (.pure _)
  exact (Built.emitReturn : Built _ false _ (fun _ => True) _).composed

/-- A statement is entered first, so it does not matter which one was at hand. -/
theorem stmt_pos (s : Stmt) (scope : Scope) (c : Context) (pos : Int64) :
    stmt s scope { c with pos } = stmt s scope c := by
  cases s with
  | ifElse _ _ _ elseBody => cases elseBody <;> (rw [stmt]; rfl)
  | _ => rw [stmt]; rfl

theorem enter_of_unknown (loc : Loc) (scope : Scope) {c : Context} (unknown : c.flags = .unknown) :
    enter loc scope c = .ok () { c with pos := loc.pos, code := c.code ++ labelLines loc } := by
  unfold enter labelLines
  cases loc.label.isEmpty with
  | true =>
    rw [if_pos rfl, List.append_nil]
    rfl
  | false =>
    have same : { c with flags := .unknown } = c := by rw [← unknown]
    rw [← same]
    rfl

theorem function_single {f : Function} {loc : Loc} {s : Stmt} (body : f.body = some ⟨loc, [s]⟩)
    (scope : Scope) (trampolines : List String) :
    function f scope { trampolines } =
      single s scope { trampolines, code := .label f.name :: labelLines loc } := by
  have moved : function f scope { trampolines } = single s scope
      { trampolines, pos := loc.pos, code := .label f.name :: labelLines loc } := by
    unfold function
    rw [body]
    change (EStateM.bind (stmt (.block loc [s]) scope) fun _ => _)
      { trampolines, code := [.label f.name] } = _
    rw [stmt]
    change EStateM.bind (EStateM.bind (enter loc scope) fun _ => stmts [s] scope) _ _ = _
    unfold EStateM.bind
    rw [enter_of_unknown loc scope rfl]
    rfl
  rw [moved]
  change EStateM.bind (stmts [s] scope) _ _ = EStateM.bind (stmts [s] scope) _ _
  rw [stmts]
  change EStateM.bind (EStateM.bind (stmt s scope) _) _ _ =
    EStateM.bind (EStateM.bind (stmt s scope) _) _ _
  unfold EStateM.bind
  have still : stmt s scope
      { trampolines, pos := loc.pos, code := .label f.name :: labelLines loc } =
        stmt s scope { trampolines, code := .label f.name :: labelLines loc } :=
    stmt_pos s scope { trampolines, code := .label f.name :: labelLines loc } loc.pos
  rw [still]

/--
A body of one statement comes out alike in blocks at different places of the source, but for their
labels.
-/
theorem function_alike {f g : Function} (s : Stmt) {t u : Table} (outlines : f.outline = g.outline)
    (tables : t.outline = u.outline) {loc other : Loc} (body : f.body = some ⟨loc, [s]⟩)
    (otherBody : g.body = some ⟨other, [s]⟩) : ∃ lines names result, ∀ trampolines,
    function f ⟨t, f⟩ { trampolines } =
        withLog (.label f.name :: (labelLines loc ++ lines)) (recorded names trampolines) result ∧
      function g ⟨u, g⟩ { trampolines } =
        withLog (.label f.name :: (labelLines other ++ lines)) (recorded names trampolines)
          result := by
  have composed := composed_single s
  obtain ⟨lines, names, blind, -⟩ := composed.logs_linked ⟨t, f⟩ {}
  have scopes : (Scope.mk t f).outline = (Scope.mk u g).outline := by
    rw [Scope.outline, Scope.outline, tables, outlines]
  have named : g.name = f.name := (congrArg Function.name outlines).symm
  refine ⟨lines, names, single s ⟨t, f⟩ {}, fun trampolines => ⟨?_, ?_⟩⟩
  · rw [function_single body]
    exact blind _ _
  · rw [function_single otherBody, ← composed.outlined, ← scopes, composed.outlined, named]
    exact blind _ _

end Lowering

namespace Symbols

theorem insertBy_map_outline (f : Function) (list : List Function) :
    insertBy Table.declaredBefore f.outline (list.map Function.outline) =
      (insertBy Table.declaredBefore f list).map Function.outline := by
  induction list with
  | nil => rfl
  | cons g rest ih =>
    have order : Table.declaredBefore f.outline g.outline = Table.declaredBefore f g := rfl
    rw [List.map_cons, insertBy, insertBy, order, ih]
    split <;> rfl

/-- Whether and where a function is added does not depend on bodies. -/
theorem defineFunction_outline (t : Table) (f : Function) :
    t.outline.defineFunction f.outline = (t.defineFunction f).map Table.outline := by
  have known : (t.outline.getFunction? f.name).isSome = (t.getFunction? f.name).isSome := by
    unfold Table.getFunction?
    simp only [Table.outline, List.find?_map, Option.isSome_map]
    rfl
  have added :
      { t.outline with functions := insertBy Table.declaredBefore f.outline t.outline.functions } =
      Table.outline { t with functions := insertBy Table.declaredBefore f t.functions } := by
    rw [Table.outline, Table.outline, insertBy_map_outline]
  unfold Table.defineFunction
  rw [added]
  change (if f.name.isEmpty then _ else if (t.outline.getFunction? f.name).isSome then _ else
    if (t.getVariable? f.name).isSome then _ else _) = _
  rw [known]
  split_ifs <;> rfl

theorem defineFunction_alike {t u : Table} {f g : Function} (tables : t.outline = u.outline)
    (outlines : f.outline = g.outline) :
    (t.defineFunction f).map Table.outline = (u.defineFunction g).map Table.outline := by
  rw [← defineFunction_outline, tables, outlines, defineFunction_outline]

end Symbols

namespace Program

/-- The records declare the same function, and both have bodies that are read. -/
structure SameDeclaration (r q : FunctionRecord) : Prop where
  function : r.function = q.function
  blocks : r.block = q.block ∨ ∃ a b, r.block = .ok a ∧ q.block = .ok b

theorem addFunctions_alike {rs qs : List FunctionRecord}
    (same : List.Forall₂ SameDeclaration rs qs) :
    ∀ {t u : Table} (order : Int64), t.outline = u.outline →
      (addFunctions t order rs).map Table.outline =
        (addFunctions u order qs).map Table.outline := by
  induction same with
  | nil =>
    intro t u order tables
    exact congrArg Except.ok tables
  | @cons r q rs qs declares _ ih =>
    intro t u order tables
    have read : (∃ e, r.block = .error e ∧ q.block = .error e) ∨
        ∃ a b, r.block = .ok a ∧ q.block = .ok b := by
      rcases declares.blocks with same | read
      · rw [same]
        cases q.block with
        | error e => exact .inl ⟨e, rfl, rfl⟩
        | ok body => exact .inr ⟨body, body, rfl, rfl⟩
      · exact .inr read
    rw [addFunctions, addFunctions, declares.function]
    rcases read with ⟨e, left, right⟩ | ⟨a, b, left, right⟩
    · rw [left, right]
      rfl
    · have defined := Symbols.defineFunction_alike tables
        (f := { q.function with order, body := a }) (g := { q.function with order, body := b }) rfl
      revert defined
      rw [left, right]
      dsimp only [bind, Except.bind]
      cases t.defineFunction { q.function with order, body := a } <;>
        cases u.defineFunction { q.function with order, body := b } <;> intro defined
      · cases defined
        rfl
      · cases defined
      · cases defined
      · exact ih _ (Except.ok.inj defined)

theorem block_json {s : Stmt} (complete : s.isComplete = true) (r : FunctionRecord) :
    FunctionRecord.block { r with body := some s.json } = .ok (some (.ofStmt s)) := by
  have read := Node.stmtUpTo_json s complete (4 * (s.json.depth + 1)) (by omega)
  simp [FunctionRecord.block, Node.stmt, read]

/-- The object of a block that holds a statement, and says nothing of its own place. -/
def blockAround (s : Json.Value) : Json.Value :=
  .object [("type", .string "block"), ("stmts", .array [s])]

theorem block_blockAround {s : Stmt} (complete : s.isComplete = true) (r : FunctionRecord) :
    FunctionRecord.block { r with body := some (blockAround s.json) } = .ok (some ⟨{}, [s]⟩) := by
  have depth : (blockAround s.json).depth = s.json.depth + 2 := by
    simp [blockAround, Json.Value.depth, Json.Value.membersDepth, Json.Value.itemsDepth]
  have item := Node.stmtUpTo_json s complete (4 * s.json.depth + 10) (by omega)
  have bound : 4 * (s.json.depth + 2 + 1) = 4 * s.json.depth + 10 + 1 + 1 := by omega
  have place : Node.loc [("type", .string "block"), ("stmts", .array [s.json])] = .ok {} := rfl
  have kind : Node.kind [("type", .string "block"), ("stmts", .array [s.json])] = "block" := rfl
  have items : Node.optional Node.rawItems []
      [("type", .string "block"), ("stmts", .array [s.json])] "stmts" = .ok [s.json] :=
    Node.optional_rawItems rfl
  have read : Node.stmt (blockAround s.json) = .ok (some (.block {} [s])) := by
    rw [Node.stmt, depth, bound, blockAround, Node.stmtUpTo]
    simp [Node.members?, Node.stmtsUpTo, item, place, kind, items]
  simp [FunctionRecord.block, read, Block.ofStmt]

end Program

namespace Generator

open Lowering (labelLines)

/-- The stream of a function whose label stands before these lines. -/
def headed (name : String) (lines : List Line) : Stream :=
  { name, lines := .label name :: lines }

theorem generate_alike_body {g h : Generator} (tables : g.symbols.outline = h.symbols.outline)
    (streams : g.streams = h.streams) (f : Function) (s : Stmt) (loc other : Loc) :
    ∃ outcome : Except GenerateError (List Line),
      (g.generate { f with body := some ⟨loc, [s]⟩ }).2 =
          outcome.map (fun lines => headed f.name (labelLines loc ++ lines)) ∧
        (h.generate { f with body := some ⟨other, [s]⟩ }).2 =
          outcome.map (fun lines => headed f.name (labelLines other ++ lines)) := by
  obtain ⟨lines, names, result, same⟩ := Lowering.function_alike
    (f := { f with body := some ⟨loc, [s]⟩ }) (g := { f with body := some ⟨other, [s]⟩ }) s rfl
    tables
    rfl rfl
  by_cases used : g.streams.any (·.name == f.name) = true
  · refine ⟨.error (.twice f.name), ?_, ?_⟩
    · exact congrArg Prod.snd (if_pos used)
    · exact congrArg Prod.snd (if_pos (streams ▸ used))
  · have otherUsed := streams ▸ used
    unfold generate
    rw [if_neg used, if_neg otherUsed, (same _).1, (same _).2]
    cases result with
    | ok _ context => exact ⟨.ok lines, rfl, rfl⟩
    | error failure context => exact ⟨.error (.failure failure), rfl, rfl⟩

/--
A program whose function has a statement for a body is loaded like the one with a block around this
statement, up to the place of the block. The function fails alike in both, or has the same lines in
both, but that a label of the statement is placed twice without the block.
-/
theorem generate_bare {s : Stmt} (complete : s.isComplete = true)
    (bare : ∀ loc body, s ≠ .block loc body) (r : FunctionRecord)
    (before after : List FunctionRecord) (t : Table) (order : Int64) :
    FunctionRecord.block { r with body := some s.json } = .ok (some ⟨s.loc, [s]⟩) ∧
      FunctionRecord.block { r with body := some (Program.blockAround s.json) } =
        .ok (some ⟨{}, [s]⟩) ∧
      (addFunctions t order (before ++ { r with body := some s.json } :: after)).map Table.outline =
        (addFunctions t order
          (before ++ { r with body := some (Program.blockAround s.json) } :: after)).map
            Table.outline ∧
      ∀ g h : Generator, g.symbols.outline = h.symbols.outline → g.streams = h.streams →
        ∃ outcome : Except GenerateError (List Line),
          (g.generate { r.function with body := some ⟨s.loc, [s]⟩ }).2 =
              outcome.map (fun lines => headed r.function.name (labelLines s.loc ++ lines)) ∧
            (h.generate { r.function with body := some ⟨{}, [s]⟩ }).2 =
              outcome.map (headed r.function.name) := by
  have single : Block.ofStmt s = ⟨s.loc, [s]⟩ := by
    cases s with
    | block loc body => exact absurd rfl (bare loc body)
    | _ => rfl
  have left := Program.block_json complete r
  have right := Program.block_blockAround complete r
  rw [single] at left
  refine ⟨left, right, ?_, ?_⟩
  · have kept (rs : List FunctionRecord) : List.Forall₂ Program.SameDeclaration rs rs :=
      List.forall₂_same.mpr fun _ _ => ⟨rfl, .inl rfl⟩
    have changed : Program.SameDeclaration { r with body := some s.json }
        { r with body := some (Program.blockAround s.json) } :=
      ⟨rfl, .inr ⟨_, _, left, right⟩⟩
    exact Program.addFunctions_alike
      (List.rel_append (kept before) (.cons changed (kept after))) order rfl
  · intro g h tables streams
    exact generate_alike_body tables streams r.function s s.loc {}

/-- A return that carries a label. -/
def labelledReturn : Stmt :=
  .ret { label := "again" } .absent

theorem generate_labelledReturn :
    labelledReturn.isComplete = true ∧ (∀ loc body, labelledReturn ≠ .block loc body) ∧
      ∃ outcome : Except GenerateError (List Line),
        (generate ⟨{}, [], []⟩
            { name := "main", body := some ⟨labelledReturn.loc, [labelledReturn]⟩ }).2 =
          outcome.map (fun lines => headed "main" (labelLines { label := "again" } ++ lines)) ∧
        (generate ⟨{}, [], []⟩ { name := "main", body := some ⟨{}, [labelledReturn]⟩ }).2 =
          outcome.map (headed "main") :=
  ⟨rfl, nofun,
    (generate_bare (s := labelledReturn) rfl nofun { function := { name := "main" } } [] [] {}
      0).2.2.2 ⟨{}, [], []⟩ ⟨{}, [], []⟩ rfl rfl⟩

/-- The block that a labelled statement gets places the label once more. -/
theorem bare_label_twice :
    ¬ ∀ (s : Stmt) (g : Generator) (f : Function), (∀ loc body, s ≠ .block loc body) →
      (g.generate { f with body := some (.ofStmt s) }).2 =
        (g.generate { f with body := some ⟨{}, [s]⟩ }).2 := by
  intro same
  have streams := same labelledReturn ⟨{}, [], []⟩ { name := "main" } nofun
  have lengths := congrArg (fun outcome => outcome.toOption.map (·.lines.length)) streams
  have differ : ¬ some 4 = some 3 := by decide
  exact differ lengths

end Generator

end Backend6502
