import Backend6502.Program.Node
import Backend6502.Proofs.JsonTexts

/-!
# Statements as JSON

The JSON object of a statement, in which parts that are missing are left out, and the trees that
such objects can hold: operands and bodies are there and each operator belongs to its kind of node.
Whatever is read is such a tree, and such a tree is read back from its text, if the text is not
nested more deeply than the reader admits.
-/

namespace Backend6502

open Json (Value)

namespace Source

/-- The operators before an operand. -/
def Op.unary : List Op :=
  [.neg, .not, .bitNot, .deref]

/-- The increments and decrements. -/
def Op.steps : List Op :=
  [.preInc, .preDec, .postInc, .postDec]

/-- How an increment or decrement is written around an `x`. -/
def Op.stepText (op : Op) : String :=
  if op.isPostfix then "x" ++ op.text else op.text ++ "x"

theorem Op.ofUnaryText?_text {op : Op} (isUnary : op ∈ Op.unary) :
    Op.ofUnaryText? op.text = some op := by
  revert op
  decide

theorem Op.ofStepText?_stepText {op : Op} (isStep : op ∈ Op.steps) :
    Op.ofStepText? op.stepText = some op := by
  revert op
  decide

namespace Expr

mutual

/-- Operands are there, and operators belong to their kind of node. -/
def isComplete : Expr → Bool
  | .absent | .nothing | .int _ => true
  | .var _ index => index.isComplete
  | .binary op lhs rhs =>
    Op.binary.contains op && !lhs.isAbsent && !rhs.isAbsent && lhs.isComplete && rhs.isComplete
  | .unary op operand => Op.unary.contains op && !operand.isAbsent && operand.isComplete
  | .incDec op operand => Op.steps.contains op && !operand.isAbsent && operand.isComplete
  | .call _ args => areComplete args

/-- All arguments are complete; some may be missing. -/
def areComplete : List Expr → Bool
  | [] => true
  | arg :: rest => arg.isComplete && areComplete rest

end

end Expr

namespace Stmt

mutual

/-- Bodies are there, and all expressions are complete. -/
def isComplete : Stmt → Bool
  | .block _ body => areComplete body
  | .expr _ e | .ret _ e | .strobe _ e => e.isComplete
  | .forLoop _ init cond update body =>
    init.isComplete && cond.isComplete && update.isComplete && body.isComplete
  | .whileLoop _ cond body => cond.isComplete && body.isComplete
  | .doWhile _ body cond => body.isComplete && cond.isComplete
  | .ifElse _ cond thenBody elseBody =>
    cond.isComplete && thenBody.isComplete && elseComplete elseBody
  | .switch _ selector arms => selector.isComplete && armsComplete arms
  | .leave _ | .next _ | .asm _ _ | .goto _ _ => true

def areComplete : List Stmt → Bool
  | [] => true
  | s :: rest => s.isComplete && areComplete rest

def elseComplete : Option Stmt → Bool
  | none => true
  | some s => s.isComplete

def armComplete : Arm Stmt → Bool
  | ⟨_, _, body⟩ => areComplete body

def armsComplete : List (Arm Stmt) → Bool
  | [] => true
  | arm :: rest => armComplete arm && armsComplete rest

end

end Stmt

end Source

namespace Program

open Source (Op Expr Loc Arm Stmt)

def given (members : List (String × Value)) : List (String × Value) :=
  members.filter fun (_, value) => match value with
    | .null => false
    | _ => true

def number (n : Int64) : Value :=
  .number (toString n)

def label (text : String) : Value :=
  if text = "" then .null else .string text

end Program

namespace Source

open Program (given number label)

namespace Expr

mutual

def json : Expr → Value
  | .absent => .null
  | .nothing => .object (given [("type", .string "nothing")])
  | .int value => .object (given [("type", .string "int"), ("value", number value)])
  | .var name index =>
    .object (given [("type", .string "var"), ("name", .string name), ("index", index.json)])
  | .binary op lhs rhs =>
    .object (given [("type", .string "binary"), ("op", .string op.text), ("lhs", lhs.json),
      ("rhs", rhs.json)])
  | .unary op operand =>
    .object (given [("type", .string "unary"), ("op", .string op.text), ("operand", operand.json)])
  | .incDec op operand =>
    .object (given [("type", .string "incdec"), ("op", .string op.stepText),
      ("operand", operand.json)])
  | .call name args =>
    .object
      (given [("type", .string "call"), ("name", .string name), ("args", .array (jsons args))])

def jsons : List Expr → List Value
  | [] => []
  | arg :: rest => arg.json :: jsons rest

end

end Expr

namespace Stmt

/-- The object of a statement of a kind, with its place and other members. -/
def node (kind : String) (loc : Loc) (members : List (String × Value)) : Value :=
  .object (given (("type", .string kind) :: ("pos", number loc.pos) :: ("label", label loc.label) ::
    members))

mutual

def json : Stmt → Value
  | .block loc body => node "block" loc [("stmts", .array (jsons body))]
  | .expr loc e => node "expr" loc [("expr", e.json)]
  | .forLoop loc init cond update body =>
    node "for" loc [("init", init.json), ("cond", cond.json), ("update", update.json),
      ("body", body.json)]
  | .whileLoop loc cond body => node "while" loc [("cond", cond.json), ("body", body.json)]
  | .doWhile loc body cond => node "dowhile" loc [("body", body.json), ("cond", cond.json)]
  | .ifElse loc cond thenBody elseBody =>
    node "if" loc [("cond", cond.json), ("then", thenBody.json), ("else", elseJson elseBody)]
  | .switch loc selector arms =>
    node "switch" loc [("selector", selector.json), ("arms", .array (armsJson arms))]
  | .leave loc => node "break" loc []
  | .next loc => node "continue" loc []
  | .ret loc value => node "return" loc [("value", value.json)]
  | .asm loc text => node "asm" loc [("text", .string text)]
  | .strobe loc target => node "strobe" loc [("target", target.json)]
  | .goto loc target => node "goto" loc [("to", .string target)]

def jsons : List Stmt → List Value
  | [] => []
  | s :: rest => s.json :: jsons rest

def elseJson : Option Stmt → Value
  | none => .null
  | some s => s.json

def armJson : Arm Stmt → Value
  | ⟨values, isDefault, body⟩ =>
    .object [("values", .array (values.map number)), ("default", .bool isDefault),
      ("body", .array (jsons body))]

def armsJson : List (Arm Stmt) → List Value
  | [] => []
  | arm :: rest => armJson arm :: armsJson rest

end

end Stmt

end Source

namespace Program

open Source (Op Expr Loc Arm Stmt)

def present : Value → Option Value
  | .null => none
  | value => some value

section Members

variable {name key kind : String} {value : Value} {members : List (String × Value)}

@[simp] theorem present_number (n : Int64) : present (number n) = some (number n) := rfl

@[simp] theorem present_string (text : String) :
    present (.string text) = some (.string text) := rfl

@[simp] theorem present_array (items : List Value) :
    present (.array items) = some (.array items) := rfl

@[simp] theorem lastOf?_given_nil : Value.lastOf? name (given []) = none := by
  rw [given, List.filter_nil, Value.lastOf?]

@[simp] theorem lastOf?_given_cons :
    Value.lastOf? name (given ((key, value) :: members)) =
      (Value.lastOf? name (given members)).or (if key = name then present value else none) := by
  cases value with
  | null => simp [given, present]
  | _ =>
    simp only [given, List.filter_cons_of_pos, Value.lastOf?, present, beq_iff_eq]
    split <;> simp_all

theorem membersDepth_given : Value.membersDepth (given members) = Value.membersDepth members := by
  induction members with
  | nil => rfl
  | cons member members ih =>
    obtain ⟨key, value⟩ := member
    rw [given] at ih
    cases value <;> simp [given, Value.membersDepth, Value.depth, ih]

theorem membersWhole_given (whole : Value.MembersWhole members) :
    Value.MembersWhole (given members) := by
  induction members with
  | nil => exact whole
  | cons member members ih =>
    obtain ⟨key, value⟩ := member
    have others := ih whole.2
    cases value with
    | null => exact others
    | _ => exact ⟨whole.1, others⟩

end Members

/-! ## Reading what is written -/

section Results

variable {ε α β : Type}

@[simp] theorem ok_bind (a : α) (f : α → Except ε β) : (Except.ok a >>= f) = f a := rfl

@[simp] theorem ok_map (a : α) (f : α → β) : (f <$> (Except.ok a : Except ε α)) = .ok (f a) := rfl

@[simp] theorem pure_eq_ok (a : α) : (pure a : Except ε α) = .ok a := rfl

@[simp] theorem mapError_ok {ε' : Type} (a : α) (f : ε → ε') :
    (Except.ok a : Except ε α).mapError f = .ok a := rfl

end Results

namespace Record

theorem int_number (old n : Int64) : int old (number n) = .ok n := by
  have low : -(Nat.pow 2 (64 - 1) : Int) ≤ n.toInt := n.le_toInt
  have high : n.toInt < Nat.pow 2 (64 - 1) := n.toInt_lt
  have read : Text.signed? 10 64 (toString n).toList = some n.toInt :=
    Text.signed?_toString_int low high
  simp only [int, number, read, Int64.ofInt_toInt]

theorem overItems_map {α β : Type} {onItem : α → Value → Except Fault α} {zero : α} {xs : List β}
    {item : β → Value} {result : β → α} (each : ∀ x ∈ xs, onItem zero (item x) = .ok (result x)) :
    overItems onItem zero [] (xs.map item) = .ok { shown := xs.map result } := by
  induction xs with
  | nil => rfl
  | cons x xs ih =>
    have first := each x List.mem_cons_self
    have others := ih fun y inside => each y (List.mem_cons_of_mem x inside)
    simp [overItems, first, others]

theorem list_map {α β : Type} {onItem : α → Value → Except Fault α} {zero : α} {xs : List β}
    {item : β → Value} {result : β → α} (each : ∀ x ∈ xs, onItem zero (item x) = .ok (result x)) :
    list onItem zero {} (.array (xs.map item)) = .ok { shown := xs.map result } := by
  cases xs with
  | nil => rfl
  | cons x xs => exact overItems_map each

end Record

namespace Node

section Parts

variable {name type : String} {members : List (String × Value)}

@[simp] theorem exprUpTo_present (bound : Nat) (value : Value) :
    exprUpTo bound (present value) = exprUpTo bound (some value) := by
  cases value <;> cases bound <;> rfl

@[simp] theorem stmtUpTo_present (bound : Nat) (value : Value) :
    stmtUpTo bound (present value) = stmtUpTo bound (some value) := by
  cases value <;> cases bound <;> rfl

@[simp] theorem kind_given (others : Value.lastOf? "type" (given members) = none) :
    kind (given (("type", .string type) :: members)) = type := by
  simp [kind, others]

theorem text_eq_ok {text : String} (found : Value.lastOf? name members = some (.string text)) :
    Node.text members name = .ok text := by
  rw [Node.text, found]
  rfl

@[simp] theorem loc_given {loc : Loc} {kind : Value}
    (noPos : Value.lastOf? "pos" (given members) = none)
    (noLabel : Value.lastOf? "label" (given members) = none) :
    Node.loc (given (("type", kind) :: ("pos", number loc.pos) ::
      ("label", label loc.label) :: members)) = .ok loc := by
  have pos : optional (Record.int 0) 0 (given (("type", kind) :: ("pos", number loc.pos) ::
      ("label", label loc.label) :: members)) "pos" = .ok loc.pos := by
    simp [optional, noPos, Record.int_number]
  have label : optional (Record.string "") "" (given (("type", kind) :: ("pos", number loc.pos) ::
      ("label", label loc.label) :: members)) "label" = .ok loc.label := by
    by_cases none : loc.label = ""
    · simp [optional, noLabel, label, none, present]
    · simp [optional, noLabel, label, none, Record.string]
  simp only [Node.loc, pos, label, ok_bind]
  rfl

theorem rawItems_array (items : List Value) : rawItems (.array items) = .ok items := by
  have read : Record.list (fun _ item => .ok item) .null {} (.array (items.map id)) =
      .ok { shown := items.map id } :=
    Record.list_map fun _ _ => rfl
  rw [List.map_id] at read
  simp [rawItems, read]

theorem optional_rawItems {items : List Value}
    (found : Value.lastOf? name members = some (.array items)) :
    optional rawItems [] members name = .ok items := by
  simp [optional, found, rawItems_array]

end Parts

mutual

/-- An expression is read back from its object. -/
theorem exprUpTo_json : (e : Expr) → e.isComplete = true → (bound : Nat) → e.json.depth < bound →
    exprUpTo bound (some e.json) = .ok e
  | _, _, 0, deep => nomatch deep
  | .absent, _, bound + 1, _ => rfl
  | .nothing, _, bound + 1, _ => by
      rw [Expr.json, exprUpTo]
      simp [members?]
  | .int value, _, bound + 1, _ => by
      rw [Expr.json, exprUpTo]
      simp [members?, optional, Record.int_number]
  | .var name index, complete, bound + 1, deep => by
      simp only [Expr.json, Value.depth, membersDepth_given, Value.membersDepth] at deep
      have read := exprUpTo_json index complete bound (by omega)
      rw [Expr.json, exprUpTo]
      simp [members?, text_eq_ok, read]
  | .binary op lhs rhs, complete, bound + 1, deep => by
      simp only [Expr.json, Value.depth, membersDepth_given, Value.membersDepth] at deep
      simp only [Expr.isComplete, Bool.and_eq_true, Bool.not_eq_true',
        List.contains_iff_mem] at complete
      obtain ⟨⟨⟨⟨isBinary, left⟩, right⟩, completeLeft⟩, completeRight⟩ := complete
      have readLeft := exprUpTo_json lhs completeLeft bound (by omega)
      have readRight := exprUpTo_json rhs completeRight bound (by omega)
      rw [Expr.json, exprUpTo]
      simp [members?, text_eq_ok, Op.ofBinaryText?_text op isBinary, readLeft, readRight, left,
        right]
  | .unary op operand, complete, bound + 1, deep => by
      simp only [Expr.json, Value.depth, membersDepth_given, Value.membersDepth] at deep
      simp only [Expr.isComplete, Bool.and_eq_true, Bool.not_eq_true',
        List.contains_iff_mem] at complete
      obtain ⟨⟨isUnary, there⟩, complete⟩ := complete
      have read := exprUpTo_json operand complete bound (by omega)
      rw [Expr.json, exprUpTo]
      simp [members?, text_eq_ok, Op.ofUnaryText?_text isUnary, read, there]
  | .incDec op operand, complete, bound + 1, deep => by
      simp only [Expr.json, Value.depth, membersDepth_given, Value.membersDepth] at deep
      simp only [Expr.isComplete, Bool.and_eq_true, Bool.not_eq_true',
        List.contains_iff_mem] at complete
      obtain ⟨⟨isStep, there⟩, complete⟩ := complete
      have read := exprUpTo_json operand complete bound (by omega)
      rw [Expr.json, exprUpTo]
      simp [members?, text_eq_ok, Op.ofStepText?_stepText isStep, read, there]
  | .call name args, complete, bound + 1, deep => by
      simp only [Expr.json, Value.depth, membersDepth_given, Value.membersDepth] at deep
      have read := mapM_exprUpTo args complete bound (by omega)
      rw [Expr.json, exprUpTo]
      simp [members?, text_eq_ok, optional_rawItems, read]

theorem mapM_exprUpTo : (args : List Expr) → Expr.areComplete args = true → (bound : Nat) →
    Value.itemsDepth (Expr.jsons args) < bound →
    (Expr.jsons args).mapM (fun arg => exprUpTo bound (some arg)) = .ok args
  | [], _, _, _ => rfl
  | arg :: rest, complete, bound, deep => by
      simp only [Expr.jsons, Value.itemsDepth] at deep
      simp only [Expr.areComplete, Bool.and_eq_true] at complete
      have first := exprUpTo_json arg complete.1 bound (by omega)
      have others := mapM_exprUpTo rest complete.2 bound (by omega)
      simp [Expr.jsons, first, others]

end

section Arms

/-- An arm whose statements are still objects. -/
def rawArm (a : Arm Stmt) : RawArm :=
  { values := { shown := a.values }
    isDefault := a.isDefault
    body := { shown := Stmt.jsons a.body } }

theorem arm_armJson (a : Arm Stmt) : arm {} (Stmt.armJson a) = .ok (rawArm a) := by
  obtain ⟨values, isDefault, body⟩ := a
  have readValues : Record.list Record.int 0 {} (.array (values.map number)) =
      .ok { shown := values.map id } :=
    Record.list_map fun n _ => Record.int_number 0 n
  have readBody : Record.list (fun _ item => .ok item) .null {}
      (.array ((Stmt.jsons body).map id)) = .ok { shown := (Stmt.jsons body).map id } :=
    Record.list_map fun _ _ => rfl
  rw [List.map_id] at readValues readBody
  have names : ∀ name ∈ ["values", "default", "body"],
      Record.nameOf? ["values", "default", "body"] name = some name := by decide
  simp [arm, Stmt.armJson, Record.read, Record.overMembers, names, readValues, readBody,
    Record.bool, rawArm]

theorem armsJson_eq_map (list : List (Arm Stmt)) : Stmt.armsJson list = list.map Stmt.armJson := by
  induction list with
  | nil => rfl
  | cons a list ih => rw [Stmt.armsJson, ih, List.map_cons]

theorem optional_arms {name : String} {members : List (String × Value)} (list : List (Arm Stmt))
    (found : Value.lastOf? name members = some (.array (Stmt.armsJson list))) :
    optional arms [] members name = .ok (list.map rawArm) := by
  have read : Record.list arm {} {} (.array (list.map Stmt.armJson)) =
      .ok { shown := list.map rawArm } :=
    Record.list_map fun a _ => arm_armJson a
  simp [optional, found, armsJson_eq_map, arms, read]

end Arms

theorem depth_node (kind : String) (loc : Loc) (members : List (String × Value)) :
    (Stmt.node kind loc members).depth = Value.membersDepth members + 1 := by
  have flat : (label loc.label).depth = 0 := by
    unfold label
    split <;> rfl
  simp [Stmt.node, Value.depth, membersDepth_given, Value.membersDepth, number, flat]

theorem depth_pos (s : Stmt) : 0 < s.json.depth := by
  cases s <;> rw [Stmt.json, depth_node] <;> exact Nat.succ_pos _

mutual

/-- A statement is read back from its object. -/
theorem stmtUpTo_json : (s : Stmt) → s.isComplete = true → (bound : Nat) →
    2 * s.json.depth ≤ bound → stmtUpTo bound (some s.json) = .ok (some s)
  | s, _, 0, deep | s, _, 1, deep => by
      have := depth_pos s
      omega
  | .block loc body, complete, bound + 2, deep => by
      simp only [Stmt.json, depth_node, Value.depth, Value.membersDepth] at deep
      have read := mapM_stmtUpTo body complete bound (by omega)
      rw [Stmt.json, Stmt.node, stmtUpTo]
      simp [members?, optional_rawItems, stmtsUpTo, read]
  | .expr loc e, complete, bound + 2, deep => by
      simp only [Stmt.json, depth_node, Value.membersDepth] at deep
      have read := exprUpTo_json e complete (bound + 1) (by omega)
      rw [Stmt.json, Stmt.node, stmtUpTo]
      simp [members?, read]
  | .forLoop loc init cond update body, complete, bound + 2, deep => by
      simp only [Stmt.json, depth_node, Value.membersDepth] at deep
      simp only [Stmt.isComplete, Bool.and_eq_true] at complete
      obtain ⟨⟨⟨completeInit, completeCond⟩, completeUpdate⟩, completeBody⟩ := complete
      have readInit := exprUpTo_json init completeInit (bound + 1) (by omega)
      have readCond := exprUpTo_json cond completeCond (bound + 1) (by omega)
      have readUpdate := exprUpTo_json update completeUpdate (bound + 1) (by omega)
      have readBody := stmtUpTo_json body completeBody bound (by omega)
      rw [Stmt.json, Stmt.node, stmtUpTo]
      simp [members?, readInit, readCond, readUpdate, bodyUpTo, readBody]
  | .whileLoop loc cond body, complete, bound + 2, deep => by
      simp only [Stmt.json, depth_node, Value.membersDepth] at deep
      simp only [Stmt.isComplete, Bool.and_eq_true] at complete
      have readCond := exprUpTo_json cond complete.1 (bound + 1) (by omega)
      have readBody := stmtUpTo_json body complete.2 bound (by omega)
      rw [Stmt.json, Stmt.node, stmtUpTo]
      simp [members?, readCond, bodyUpTo, readBody]
  | .doWhile loc body cond, complete, bound + 2, deep => by
      simp only [Stmt.json, depth_node, Value.membersDepth] at deep
      simp only [Stmt.isComplete, Bool.and_eq_true] at complete
      have readBody := stmtUpTo_json body complete.1 bound (by omega)
      have readCond := exprUpTo_json cond complete.2 (bound + 1) (by omega)
      rw [Stmt.json, Stmt.node, stmtUpTo]
      simp [members?, readCond, bodyUpTo, readBody]
  | .ifElse loc cond thenBody elseBody, complete, bound + 2, deep => by
      simp only [Stmt.json, depth_node, Value.membersDepth] at deep
      simp only [Stmt.isComplete, Bool.and_eq_true] at complete
      have readCond := exprUpTo_json cond complete.1.1 (bound + 1) (by omega)
      have readThen := stmtUpTo_json thenBody complete.1.2 bound (by omega)
      have readElse := stmtUpTo_elseJson elseBody complete.2 (bound + 1) (by omega)
      rw [Stmt.json, Stmt.node, stmtUpTo]
      simp [members?, readCond, bodyUpTo, readThen, readElse]
  | .switch loc selector arms, complete, bound + 2, deep => by
      simp only [Stmt.json, depth_node, Value.depth, Value.membersDepth] at deep
      simp only [Stmt.isComplete, Bool.and_eq_true] at complete
      have readSelector := exprUpTo_json selector complete.1 (bound + 1) (by omega)
      have readArms := armsUpTo_rawArm arms complete.2 bound (by omega)
      rw [Stmt.json, Stmt.node, stmtUpTo]
      simp [members?, readSelector, optional_arms arms, readArms]
  | .leave loc, _, bound + 2, _ | .next loc, _, bound + 2, _ => by
      rw [Stmt.json, Stmt.node, stmtUpTo]
      simp [members?]
  | .ret loc value, complete, bound + 2, deep => by
      simp only [Stmt.json, depth_node, Value.membersDepth] at deep
      have read := exprUpTo_json value complete (bound + 1) (by omega)
      rw [Stmt.json, Stmt.node, stmtUpTo]
      simp [members?, read]
  | .asm loc text, _, bound + 2, _ => by
      rw [Stmt.json, Stmt.node, stmtUpTo]
      simp [members?, text_eq_ok]
  | .strobe loc target, complete, bound + 2, deep => by
      simp only [Stmt.json, depth_node, Value.membersDepth] at deep
      have read := exprUpTo_json target complete (bound + 1) (by omega)
      rw [Stmt.json, Stmt.node, stmtUpTo]
      simp [members?, read]
  | .goto loc target, _, bound + 2, _ => by
      rw [Stmt.json, Stmt.node, stmtUpTo]
      simp [members?, text_eq_ok]

theorem mapM_stmtUpTo : (body : List Stmt) → Stmt.areComplete body = true → (bound : Nat) →
    2 * Value.itemsDepth (Stmt.jsons body) ≤ bound →
    (Stmt.jsons body).mapM (fun s => stmtUpTo bound (some s)) = .ok (body.map some)
  | [], _, _, _ => rfl
  | s :: rest, complete, bound, deep => by
      simp only [Stmt.jsons, Value.itemsDepth] at deep
      simp only [Stmt.areComplete, Bool.and_eq_true] at complete
      have first := stmtUpTo_json s complete.1 bound (by omega)
      have others := mapM_stmtUpTo rest complete.2 bound (by omega)
      simp [Stmt.jsons, first, others]

theorem stmtUpTo_elseJson : (elseBody : Option Stmt) → Stmt.elseComplete elseBody = true →
    (bound : Nat) → 2 * (Stmt.elseJson elseBody).depth ≤ bound →
    stmtUpTo bound (some (Stmt.elseJson elseBody)) = .ok elseBody
  | none, _, 0, _ => rfl
  | none, _, _ + 1, _ => rfl
  | some s, complete, bound, deep => stmtUpTo_json s complete bound deep

theorem armsUpTo_rawArm : (arms : List (Arm Stmt)) → Stmt.armsComplete arms = true →
    (bound : Nat) → 2 * Value.itemsDepth (Stmt.armsJson arms) ≤ bound →
    armsUpTo (bound + 1) (arms.map rawArm) = .ok arms
  | [], _, _, _ => rfl
  | ⟨values, isDefault, body⟩ :: rest, complete, bound, deep => by
      simp only [Stmt.armsJson, Stmt.armJson, Value.itemsDepth, Value.depth,
        Value.membersDepth] at deep
      simp only [Stmt.armsComplete, Stmt.armComplete, Bool.and_eq_true] at complete
      have others := armsUpTo_rawArm rest complete.2 bound (by omega)
      obtain ⟨bound, rfl⟩ : ∃ b, bound = b + 1 := ⟨bound - 1, by omega⟩
      have first : stmtsUpTo (bound + 1) (Stmt.jsons body) = .ok body := by
        simp [stmtsUpTo, mapM_stmtUpTo body complete.1 bound (by omega)]
      rw [armsUpTo] at others ⊢
      rw [List.map_cons, List.mapM_cons, others]
      simp [rawArm, first]

end

end Node

end Program

namespace Source

variable {op : Op} {text : String}

theorem Op.mem_unary (read : Op.ofUnaryText? text = some op) : op ∈ Op.unary := by
  unfold ofUnaryText? at read
  split at read <;> cases read <;> decide

theorem Op.mem_steps (read : Op.ofStepText? text = some op) : op ∈ Op.steps := by
  unfold ofStepText? at read
  split at read <;> cases read <;> decide

theorem Op.mem_binary (read : Op.ofBinaryText? text = some op) : op ∈ Op.binary :=
  List.mem_of_find?_eq_some read

end Source

namespace Program

open Source (Op Expr Loc Arm Stmt)

section Results

variable {ε α β : Type}

theorem bind_inv {x : Except ε α} {f : α → Except ε β} {b : β} (read : (x >>= f) = .ok b) :
    ∃ a, x = .ok a ∧ f a = .ok b := by
  cases x with
  | error e => cases read
  | ok a => exact ⟨a, rfl, read⟩

theorem of_mapM_eq_ok {f : α → Except ε β} {list : List α} {results : List β}
    (read : list.mapM f = .ok results) : ∀ b ∈ results, ∃ a ∈ list, f a = .ok b := by
  induction list generalizing results with
  | nil =>
    cases read
    exact nofun
  | cons a list ih =>
    rw [List.mapM_cons] at read
    obtain ⟨first, readFirst, read⟩ := bind_inv read
    obtain ⟨others, readOthers, read⟩ := bind_inv read
    cases read
    intro b member
    rcases List.mem_cons.mp member with rfl | later
    · exact ⟨a, List.mem_cons_self, readFirst⟩
    · obtain ⟨c, inside, readC⟩ := ih readOthers b later
      exact ⟨c, List.mem_cons_of_mem a inside, readC⟩

end Results

namespace Node

theorem areComplete_iff {args : List Expr} :
    Expr.areComplete args = true ↔ ∀ arg ∈ args, arg.isComplete = true := by
  induction args with
  | nil => simp [Expr.areComplete]
  | cons arg args ih => simp [Expr.areComplete, ih]

theorem isComplete_of_exprUpTo {bound : Nat} {value? : Option Value} {e : Expr}
    (read : exprUpTo bound value? = .ok e) : e.isComplete = true := by
  induction bound generalizing value? e with
  | zero =>
    cases read
    rfl
  | succ bound ih =>
    rw [exprUpTo] at read
    obtain ⟨node, -, read⟩ := bind_inv read
    cases node with
    | none =>
      cases read
      rfl
    | some members =>
      dsimp only at read
      split at read
      · obtain ⟨n, -, read⟩ := bind_inv read
        cases read
        rfl
      · obtain ⟨name, -, read⟩ := bind_inv read
        obtain ⟨index, readIndex, read⟩ := bind_inv read
        cases read
        rw [Expr.isComplete]
        exact ih readIndex
      · obtain ⟨opText, -, read⟩ := bind_inv read
        split at read
        · next op isOp =>
          obtain ⟨lhs, readLeft, read⟩ := bind_inv read
          obtain ⟨rhs, readRight, read⟩ := bind_inv read
          split at read
          · cases read
          · next there =>
            cases read
            rw [Bool.or_eq_true, not_or] at there
            simp [Expr.isComplete, Op.mem_binary isOp, there, ih readLeft, ih readRight]
        · cases read
      · obtain ⟨opText, -, read⟩ := bind_inv read
        obtain ⟨operand, readOperand, read⟩ := bind_inv read
        split at read
        · cases read
        · next there =>
          split at read
          · next op isOp =>
            cases read
            simp [Expr.isComplete, Op.mem_unary isOp, there, ih readOperand]
          · cases read
      · obtain ⟨opText, -, read⟩ := bind_inv read
        obtain ⟨operand, readOperand, read⟩ := bind_inv read
        split at read
        · cases read
        · next there =>
          split at read
          · next op isOp =>
            cases read
            simp [Expr.isComplete, Op.mem_steps isOp, there, ih readOperand]
          · cases read
      · obtain ⟨name, -, read⟩ := bind_inv read
        obtain ⟨raw, -, read⟩ := bind_inv read
        obtain ⟨args, readArgs, read⟩ := bind_inv read
        cases read
        rw [Expr.isComplete, areComplete_iff]
        intro arg inside
        obtain ⟨value, -, readArg⟩ := of_mapM_eq_ok readArgs arg inside
        exact ih readArg
      · cases read
        rfl
      · cases read

theorem areComplete_stmts_iff {body : List Stmt} :
    Stmt.areComplete body = true ↔ ∀ s ∈ body, s.isComplete = true := by
  induction body with
  | nil => simp [Stmt.areComplete]
  | cons s body ih => simp [Stmt.areComplete, ih]

theorem armsComplete_iff {list : List (Arm Stmt)} :
    Stmt.armsComplete list = true ↔ ∀ a ∈ list, Stmt.areComplete a.body = true := by
  induction list with
  | nil => simp [Stmt.armsComplete]
  | cons a list ih =>
    obtain ⟨values, isDefault, body⟩ := a
    simp [Stmt.armsComplete, Stmt.armComplete, ih]

mutual

theorem isComplete_of_stmtUpTo : (bound : Nat) → {value? : Option Value} → {s : Stmt} →
    stmtUpTo bound value? = .ok (some s) → s.isComplete = true
  | 0, _, _, read => nomatch read
  | bound + 1, value?, s, read => by
      rw [stmtUpTo] at read
      obtain ⟨node, -, read⟩ := bind_inv read
      cases node with
      | none => cases read
      | some members =>
        obtain ⟨loc, -, read⟩ := bind_inv read
        dsimp only at read
        split at read
        · obtain ⟨raw, -, read⟩ := bind_inv read
          obtain ⟨body, readBody, read⟩ := bind_inv read
          cases read
          rw [Stmt.isComplete]
          exact areComplete_of_stmtsUpTo bound readBody
        · obtain ⟨e, readExpr, read⟩ := bind_inv read
          cases read
          rw [Stmt.isComplete]
          exact isComplete_of_exprUpTo readExpr
        · obtain ⟨init, readInit, read⟩ := bind_inv read
          obtain ⟨cond, readCond, read⟩ := bind_inv read
          obtain ⟨update, readUpdate, read⟩ := bind_inv read
          obtain ⟨body, readBody, read⟩ := bind_inv read
          cases read
          simp [Stmt.isComplete, isComplete_of_exprUpTo readInit, isComplete_of_exprUpTo readCond,
            isComplete_of_exprUpTo readUpdate, isComplete_of_bodyUpTo bound readBody]
        · obtain ⟨cond, readCond, read⟩ := bind_inv read
          obtain ⟨body, readBody, read⟩ := bind_inv read
          cases read
          simp [Stmt.isComplete, isComplete_of_exprUpTo readCond,
            isComplete_of_bodyUpTo bound readBody]
        · obtain ⟨body, readBody, read⟩ := bind_inv read
          obtain ⟨cond, readCond, read⟩ := bind_inv read
          cases read
          simp [Stmt.isComplete, isComplete_of_exprUpTo readCond,
            isComplete_of_bodyUpTo bound readBody]
        · obtain ⟨cond, readCond, read⟩ := bind_inv read
          obtain ⟨thenBody, readThen, read⟩ := bind_inv read
          obtain ⟨elseBody, readElse, read⟩ := bind_inv read
          cases read
          have completeElse : Stmt.elseComplete elseBody = true := by
            cases elseBody with
            | none => rfl
            | some s => exact isComplete_of_stmtUpTo bound readElse
          simp [Stmt.isComplete, isComplete_of_exprUpTo readCond,
            isComplete_of_bodyUpTo bound readThen, completeElse]
        · obtain ⟨selector, readSelector, read⟩ := bind_inv read
          obtain ⟨raw, -, read⟩ := bind_inv read
          obtain ⟨arms, readArms, read⟩ := bind_inv read
          cases read
          simp [Stmt.isComplete, isComplete_of_exprUpTo readSelector,
            armsComplete_of_armsUpTo bound readArms]
        · cases read
          rfl
        · cases read
          rfl
        · obtain ⟨value, readValue, read⟩ := bind_inv read
          cases read
          rw [Stmt.isComplete]
          exact isComplete_of_exprUpTo readValue
        · obtain ⟨text, -, read⟩ := bind_inv read
          cases read
          rfl
        · obtain ⟨target, readTarget, read⟩ := bind_inv read
          cases read
          rw [Stmt.isComplete]
          exact isComplete_of_exprUpTo readTarget
        · obtain ⟨target, -, read⟩ := bind_inv read
          cases read
          rfl
        · cases read

theorem isComplete_of_bodyUpTo : (bound : Nat) → {members : List (String × Value)} →
    {name : String} → {s : Stmt} → bodyUpTo bound members name = .ok s → s.isComplete = true
  | 0, _, _, _, read => nomatch read
  | bound + 1, members, name, s, read => by
      rw [bodyUpTo] at read
      obtain ⟨found, readFound, read⟩ := bind_inv read
      cases found with
      | none => cases read
      | some s' =>
        cases read
        exact isComplete_of_stmtUpTo bound readFound

theorem areComplete_of_stmtsUpTo : (bound : Nat) → {raw : List Value} → {body : List Stmt} →
    stmtsUpTo bound raw = .ok body → Stmt.areComplete body = true
  | 0, _, _, read => by
      cases read
      rfl
  | bound + 1, raw, body, read => by
      rw [stmtsUpTo] at read
      obtain ⟨found, readFound, read⟩ := bind_inv read
      cases read
      rw [areComplete_stmts_iff]
      intro s inside
      have member : some s ∈ found := by simpa using inside
      obtain ⟨value, -, readStmt⟩ := of_mapM_eq_ok readFound (some s) member
      exact isComplete_of_stmtUpTo bound readStmt

theorem armsComplete_of_armsUpTo : (bound : Nat) → {raw : List RawArm} → {arms : List (Arm Stmt)} →
    armsUpTo bound raw = .ok arms → Stmt.armsComplete arms = true
  | 0, _, _, read => by
      cases read
      rfl
  | bound + 1, raw, arms, read => by
      rw [armsUpTo] at read
      rw [armsComplete_iff]
      intro a inside
      obtain ⟨rawArm, -, readArm⟩ := of_mapM_eq_ok read a inside
      obtain ⟨body, readBody, readArm⟩ := bind_inv readArm
      cases readArm
      exact areComplete_of_stmtsUpTo bound readBody

end

/-! ## Texts -/

mutual

theorem whole_json : (e : Expr) → e.json.Whole
  | .absent => trivial
  | .nothing => membersWhole_given ⟨trivial, trivial⟩
  | .int n => membersWhole_given ⟨trivial, ⟨n.toInt, rfl⟩, trivial⟩
  | .var _ index => membersWhole_given ⟨trivial, trivial, whole_json index, trivial⟩
  | .binary _ lhs rhs =>
    membersWhole_given ⟨trivial, trivial, whole_json lhs, whole_json rhs, trivial⟩
  | .unary _ operand | .incDec _ operand =>
    membersWhole_given ⟨trivial, trivial, whole_json operand, trivial⟩
  | .call _ args => membersWhole_given ⟨trivial, trivial, whole_jsons args, trivial⟩

theorem whole_jsons : (args : List Expr) → Value.ItemsWhole (Expr.jsons args)
  | [] => trivial
  | arg :: rest => ⟨whole_json arg, whole_jsons rest⟩

end

theorem whole_node {kind : String} {loc : Loc} {members : List (String × Value)}
    (whole : Value.MembersWhole members) : (Stmt.node kind loc members).Whole := by
  have wholeLabel : (label loc.label).Whole := by
    unfold label
    split <;> trivial
  exact membersWhole_given ⟨trivial, ⟨loc.pos.toInt, rfl⟩, wholeLabel, whole⟩

theorem whole_numbers (values : List Int64) : Value.ItemsWhole (values.map number) := by
  induction values with
  | nil => trivial
  | cons n values ih => exact ⟨⟨n.toInt, rfl⟩, ih⟩

mutual

theorem whole_stmt : (s : Stmt) → s.json.Whole
  | .block _ body => whole_node ⟨whole_stmts body, trivial⟩
  | .expr _ e => whole_node ⟨whole_json e, trivial⟩
  | .forLoop _ init cond update body =>
    whole_node ⟨whole_json init, whole_json cond, whole_json update, whole_stmt body, trivial⟩
  | .whileLoop _ cond body => whole_node ⟨whole_json cond, whole_stmt body, trivial⟩
  | .doWhile _ body cond => whole_node ⟨whole_stmt body, whole_json cond, trivial⟩
  | .ifElse _ cond thenBody elseBody =>
    whole_node ⟨whole_json cond, whole_stmt thenBody, whole_else elseBody, trivial⟩
  | .switch _ selector arms => whole_node ⟨whole_json selector, whole_arms arms, trivial⟩
  | .leave _ | .next _ => whole_node trivial
  | .ret _ value => whole_node ⟨whole_json value, trivial⟩
  | .asm _ _ | .goto _ _ => whole_node ⟨trivial, trivial⟩
  | .strobe _ target => whole_node ⟨whole_json target, trivial⟩

theorem whole_stmts : (body : List Stmt) → Value.ItemsWhole (Stmt.jsons body)
  | [] => trivial
  | s :: rest => ⟨whole_stmt s, whole_stmts rest⟩

theorem whole_else : (elseBody : Option Stmt) → (Stmt.elseJson elseBody).Whole
  | none => trivial
  | some s => whole_stmt s

theorem whole_arms : (arms : List (Arm Stmt)) → Value.ItemsWhole (Stmt.armsJson arms)
  | [] => trivial
  | ⟨values, _, body⟩ :: rest =>
    ⟨⟨whole_numbers values, trivial, whole_stmts body, trivial⟩, whole_arms rest⟩

end

/-- The text is a JSON value that is read as this statement. -/
def Reads (text : String) (s : Stmt) : Prop :=
  ∃ value, Json.parse text = .ok value ∧ stmt value = .ok (some s)

theorem Reads.isComplete {text : String} {s : Stmt} (reads : Reads text s) :
    s.isComplete = true := by
  obtain ⟨value, -, read⟩ := reads
  exact isComplete_of_stmtUpTo _ read

theorem reads_text {s : Stmt} (complete : s.isComplete = true) (fits : s.json.depth ≤ 10000) :
    Reads s.json.text s := by
  have parsed := Json.parse_text (whole_stmt s)
  rw [if_pos fits] at parsed
  exact ⟨s.json, parsed, stmtUpTo_json s complete _ (by omega)⟩

theorem depth_le_of_reads_text {s t : Stmt} (reads : Reads s.json.text t) :
    s.json.depth ≤ 10000 := by
  obtain ⟨value, parsed, -⟩ := reads
  rw [Json.parse_text (whole_stmt s)] at parsed
  split at parsed
  · next fits => exact fits
  · cases parsed

/--
A statement is read back from its text exactly if it is complete and its object is not nested more
deeply than the reader admits, and no text is read as a statement that is not complete.
-/
theorem reads_text_iff (s : Stmt) :
    (Reads s.json.text s ↔ s.isComplete = true ∧ s.json.depth ≤ 10000) ∧
      ∀ text, Reads text s → s.isComplete = true := by
  constructor
  · constructor
    · intro reads
      exact ⟨reads.isComplete, depth_le_of_reads_text reads⟩
    · rintro ⟨complete, fits⟩
      exact reads_text complete fits
  · intro text reads
    exact reads.isComplete

def calls : (n : Nat) → Expr
  | 0 => .call "f" []
  | n + 1 => .call "f" [calls n]

theorem depth_calls (n : Nat) : (Stmt.expr {} (calls n)).json.depth = 2 * n + 3 := by
  have inside : (calls n).json.depth = 2 * n + 2 := by
    induction n with
    | zero => rfl
    | succ n ih =>
      simp only [calls, Expr.json, Expr.jsons, Value.depth, membersDepth_given,
        Value.membersDepth, Value.itemsDepth, ih]
      omega
  simp only [Stmt.json, depth_node, Value.membersDepth, inside]
  omega

theorem isComplete_calls (n : Nat) : (Stmt.expr {} (calls n)).isComplete = true := by
  rw [Stmt.isComplete]
  induction n with
  | zero => rfl
  | succ n ih => simp [calls, Expr.isComplete, Expr.areComplete, ih]

/-- Five thousand calls inside each other are nested too deeply to be read back. -/
theorem not_reads_calls : ¬ ∀ s : Stmt, s.isComplete = true → Reads s.json.text s := by
  intro every
  have reads := every _ (isComplete_calls 4999)
  have fits := depth_le_of_reads_text reads
  rw [depth_calls] at fits
  omega

end Node

end Program

end Backend6502
