import Backend6502.Compiler
import Backend6502.Proofs.RepairMeaning
import Backend6502.Proofs.SafeStatements

/-!
# Final streams

Code generation is safe, so every branch of a generated stream has a target. A program whose `goto`s
name labels of their own functions is therefore compiled, or has an error that is reported.

The stream of a function starts with the label of the function, has no label twice, goes nowhere but
to its own labels, and ends in a return. Code generation makes such streams if the labels of the
source cannot be taken for made-up ones. Neither the optimizer nor the branch repair spoils them
(`finish_ordered`).
-/

namespace Backend6502

open Code (Stream Defect Targeted)
open Symbols (Table Function)
open Lowering (Places Safe Ensures sourceTexts)

namespace Symbols.Function

def labels (f : Function) : List String :=
  match f.body with
  | some block => block.toStmt.labels
  | none => []

def gotos (f : Function) : List String :=
  match f.body with
  | some block => block.toStmt.gotos
  | none => []

end Symbols.Function

namespace Lowering

variable {f : Function} {targets : String → Prop}

/-- The code of a function after its label. -/
def functionBody (f : Function) : Gen Unit :=
  match f.body with
  | none => emitReturn
  | some block => do
    stmt block.toStmt
    if !endsInReturn block.body then emitReturn

theorem function_eq (f : Function) : function f = putLabel f.name >>= fun _ => functionBody f :=
  rfl

section

variable (gotos : ∀ name ∈ f.gotos, targets (Label.source name).text)

include gotos

/-- The code of a function after its label places the labels of the source that it carries. -/
theorem places_functionBody : Places (sourceTexts f.labels) targets (functionBody f) := by
  unfold Function.gotos at gotos
  unfold functionBody Function.labels
  cases body : f.body with
  | none => exact Safe.of_built .emitReturn
  | some block =>
    rw [body] at gotos
    refine .first (places_stmt block.toStmt gotos) fun _ => .of_built ?_
    exact .ite .emitReturn (.pure _)

/-- The code of a function places its name and the labels of the source that it carries. -/
theorem places_function : Places (f.name :: sourceTexts f.labels) targets (function f) := by
  rw [function_eq]
  exact .labelled _ fun _ => places_functionBody gotos

end

/-- Where the `goto`s of a function name its own labels, each of its branches has a target. -/
theorem places_function_closed (placed : ∀ name ∈ f.gotos, name ∈ f.labels) :
    Places (f.name :: sourceTexts f.labels) (fun _ => False) (function f) := by
  have open_ : Places (f.name :: sourceTexts f.labels)
      (fun label => label ∈ sourceTexts f.labels ∨ False) (function f) :=
    places_function fun name inside => .inl (List.mem_map_of_mem (placed name inside))
  exact open_.enclose fun label inside => List.mem_cons_of_mem _ inside

end Lowering

namespace Generator

/-- Generation ends with a stream whose branches have targets, or with an error. -/
theorem generate_cases (g : Generator) {f : Function}
    (placed : ∀ name ∈ f.gotos, name ∈ f.labels) :
    (∃ next s, g.generate f = (next, .ok s) ∧ Targeted s.lines) ∨
      (∃ next name, g.generate f = (next, .error (.twice name))) ∨
      ∃ next e, g.generate f = (next, .error (.failure (.error e))) := by
  unfold generate
  split
  · exact .inr (.inl ⟨g, f.name, rfl⟩)
  · have ensures := Lowering.places_function_closed placed ⟨g.symbols, f⟩
      { trampolines := g.trampolines }
      fun _ inside => by cases inside
    unfold Ensures at ensures
    cases run : Lowering.function f ⟨g.symbols, f⟩ { trampolines := g.trampolines } with
    | ok _ context =>
      rw [run] at ensures
      obtain ⟨lines, code, aimed, -⟩ := ensures.code
      refine .inl ⟨_, _, rfl, ?_⟩
      change Targeted context.code
      rw [code, List.nil_append]
      exact aimed.targeted
    | error failure context =>
      rw [run] at ensures
      cases failure with
      | error e => exact .inr (.inr ⟨_, e, rfl⟩)
      | defect d => exact ensures.elim

end Generator

theorem finish_ok (level : Int64) {s : Stream} (targeted : Targeted s.lines) :
    ∃ finished, finish level s = .ok finished := by
  have optimized : Targeted (if 1 ≤ level then s.optimize else s).lines := by
    split
    · exact targeted.drops (s.drops_optimizeUpTo _)
    · exact targeted
  have repaired := Stream.repairUpTo_defect
    (2 * (if 1 ≤ level then s.optimize else s).branchCount + 1) _ optimized
  unfold finish Stream.repair
  split
  · exact ⟨_, rfl⟩
  · next defect same =>
    rw [same] at repaired
    cases repaired

namespace Compiler

theorem run_ne_defect (kept : Function → Bool) (level : Int64) (functions : List Function)
    (placed : ∀ f ∈ functions, ∀ name ∈ f.gotos, name ∈ f.labels) (g : Generator) (d : Defect) :
    (run kept level g functions).2 ≠ .error (.defect d) := by
  induction functions generalizing g with
  | nil => nofun
  | cons f rest ih =>
    have others (g : Generator) := ih (fun f inside => placed f (List.mem_cons_of_mem _ inside)) g
    rw [run]
    split
    · rcases g.generate_cases (placed f List.mem_cons_self) with
        ⟨next, s, generated, targeted⟩ | ⟨next, name, generated⟩ | ⟨next, e, generated⟩
      · obtain ⟨finished, ok⟩ := finish_ok level targeted
        simp only [generated, ok]
        have further := others next
        cases result : (run kept level next rest).2 with
        | ok compiled => nofun
        | error failure =>
          rw [result] at further
          exact further
      · rw [generated]
        nofun
      · rw [generated]
        nofun
    · exact others g

end Compiler

/-- A function that goes to a label of its own from inside a condition. -/
def jumpTable : Table :=
  { functions := [{ name := "main", body := some ⟨{},
      [.ifElse {} (.binary .eq (.var "X" .absent) (.int 1)) (.goto {} "done") none,
       .expr { label := "done" } .nothing]⟩ }] }

open Cpu (Mnemonic)

namespace Code

/-- Every branch and jump goes to one of the labels of the lines. -/
def Steered (lines : List Line) : Prop :=
  ∀ i, .instruction i ∈ lines → i.steers = true → i.operand ∈ labelNames lines

theorem Aimed.steered {lines : List Line} (aimed : Aimed (fun _ => False) lines) : Steered lines :=
  fun i inside steers => (aimed i inside steers).resolve_left id

theorem Steered.targeted {lines : List Line} (steered : Steered lines) : Targeted lines :=
  fun i inside conditional => steered i inside (Instruction.steers_of_isConditional conditional)

/-- The last line that was not removed holds this instruction. -/
def ClosedBy (m : Mnemonic) (lines : List Line) : Prop :=
  ∃ above i below, lines = above ++ .instruction i :: below ∧ i.op = .known m ∧
    ∀ line ∈ below, line = .removed

section Fading

variable {old new : List Line} {m : Mnemonic}

theorem Steered.drops (steered : Steered old) (drops : List.Forall₂ Drops old new) :
    Steered new := by
  intro i inside steers
  rw [labelNames_of_drops drops]
  rcases instruction_of_drops drops inside with before | ⟨j, before, branches, rfl⟩
  · exact steered i before steers
  · exact steered.targeted j before branches

theorem eq_removed_of_drops (drops : List.Forall₂ Drops old new)
    (removed : ∀ line ∈ old, line = .removed) : ∀ line ∈ new, line = .removed := by
  induction drops with
  | nil => exact removed
  | cons head _ ih =>
    obtain ⟨here, others⟩ := List.forall_mem_cons.mp removed
    subst here
    cases head
    exact List.forall_mem_cons.mpr ⟨rfl, ih others⟩

/-- A return stays the last line that was not removed. -/
theorem ClosedBy.drops (returns : (m == .rts || m == .rti) = true) (closed : ClosedBy m old)
    (drops : List.Forall₂ Drops old new) : ClosedBy m new := by
  obtain ⟨above, i, below, rfl, op, removed⟩ := closed
  have lasting : ¬i.Passing := by
    rintro ⟨-, passes⟩
    rw [Line.isReturn, op] at passes
    have passes : (m == .rts || m == .rti) = false := passes
    rw [returns] at passes
    cases passes
  induction above generalizing new with
  | nil =>
    cases drops with
    | cons head rest =>
      cases head with
      | same => exact ⟨[], i, _, rfl, op, eq_removed_of_drops rest removed⟩
      | removed _ found light => exact absurd (passing_of_dispensable found light) lasting
      | jump _ branches => exact absurd (passing_of_branches branches).1 lasting
  | cons line above ih =>
    cases drops with
    | cons head rest =>
      obtain ⟨upper, j, lower, rfl, same, gone⟩ := ih rest
      exact ⟨_ :: upper, j, lower, rfl, same, gone⟩

end Fading

section Repairs

variable {m : Mnemonic} {first second : List Line}

theorem ClosedBy.prepend (closed : ClosedBy m second) (first : List Line) :
    ClosedBy m (first ++ second) := by
  obtain ⟨above, i, below, rfl, op, removed⟩ := closed
  exact ⟨first ++ above, i, below, (List.append_assoc ..).symm, op, removed⟩

/-- The last line that was not removed is in the second part, unless all of that was removed. -/
theorem ClosedBy.of_append (closed : ClosedBy m (first ++ second)) :
    ClosedBy m second ∨ (∀ line ∈ second, line = .removed) ∧ ClosedBy m first := by
  obtain ⟨above, i, below, whole, op, removed⟩ := closed
  rcases cut_append whole with ⟨upper, rfl, rfl⟩ | ⟨lower, rfl, rfl⟩
  · exact .inl ⟨upper, i, below, rfl, op, removed⟩
  · refine .inr ⟨fun line inside => ?_, above, i, lower, rfl, op, fun line inside => ?_⟩
    · exact removed line (List.mem_append_right _ inside)
    · exact removed line (List.mem_append_left _ inside)

variable {site : Site} {landing old : List Line}

/-- The lines of a decision do not close a stream. -/
theorem Site.Made.closed_after (made : site.Made landing old)
    (returns : (m == .rts || m == .rti) = true)
    (closed : ClosedBy m (site.before.reverse ++ (old ++ site.after))) : ClosedBy m site.after := by
  have branches {i : Instruction} (inside : .instruction i ∈ old) : ∃ m, i.op = .known m ∧
      m.isBranch = true := by
    rcases made.line_cases inside with silent | ⟨j, m, same, op, branch⟩
    · cases silent
    · cases same
      exact ⟨m, op, branch⟩
  have unended : ¬ClosedBy m old := by
    rintro ⟨above, i, below, rfl, op, -⟩
    obtain ⟨m', alsoOp, branch⟩ := branches (i := i) (by simp)
    cases op.symm.trans alsoOp
    cases m <;> revert branch returns <;> decide
  obtain ⟨i, inside, -⟩ := made.exists_branch
  have kept : ¬∀ line ∈ old, line = .removed := fun removed => by cases removed _ inside
  rw [← List.append_assoc] at closed
  rcases closed.of_append with done | ⟨-, closed⟩
  · exact done
  · rcases closed.of_append with bad | ⟨bad, -⟩
    · exact absurd bad unended
    · exact absurd bad kept

end Repairs

/-- The lines of a function with this name that ends in such an instruction. -/
structure WellFormed (name : String) (m : Mnemonic) (lines : List Line) : Prop where
  starts : lines.head? = some (.label name)
  distinct : (labelNames lines).Nodup
  steered : Steered lines
  closed : ClosedBy m lines

/-- Well-formed lines that have none of the labels that repairs after the first `fixes` bring in. -/
structure Ordered (name : String) (m : Mnemonic) (fixes : Nat) (lines : List Line) : Prop
    extends WellFormed name m lines where
  free : ∀ n, fixes < n → Site.pastLabel n ∉ labelNames lines ∧ Site.jumpLabel n ∉ labelNames lines

namespace Ordered

variable {name : String} {m : Mnemonic} {fixes : Nat} {lines new : List Line}

theorem repairable (order : Ordered name m fixes lines) : Repairable fixes lines where
  distinct := order.distinct
  targeted := order.steered.targeted
  fresh := by
    have unmentioned {label : String} (absent : label ∉ labelNames lines) {line : Line}
        (inside : line ∈ lines) : line.mentions label = false :=
      Line.mentions_eq_false absent
        (fun i inside steers same => absent (same ▸ order.steered i inside steers)) inside
    intro n larger line inside
    obtain ⟨past, jump⟩ := order.free n larger
    exact ⟨unmentioned past inside, unmentioned jump inside⟩

/-- The optimizer keeps the order. -/
theorem drops (order : Ordered name m fixes lines) (returns : (m == .rts || m == .rti) = true)
    (drops : List.Forall₂ Drops lines new) : Ordered name m fixes new where
  starts := by
    have first := order.starts
    cases drops with
    | nil => exact first
    | cons head rest =>
      cases Option.some.inj first
      cases head
      rfl
  distinct := by
    rw [labelNames_of_drops drops]
    exact order.distinct
  steered := order.steered.drops drops
  closed := order.closed.drops returns drops
  free := by
    rw [labelNames_of_drops drops]
    exact order.free

variable {site : Site} {landing old : List Line}

theorem repaired (order : Ordered name m fixes (site.before.reverse ++ (old ++ site.after)))
    (returns : (m == .rts || m == .rti) = true) (made : site.Made landing old) :
    Ordered name m (fixes + 1)
      (site.before.reverse ++ (site.lines (fixes + 1) ++ site.after)) where
  starts := by
    have first := order.starts
    cases above : site.before.reverse with
    | cons line rest =>
      rw [above] at first
      exact first
    | nil =>
      -- The lines of a decision start with an instruction.
      rw [above] at first
      cases made <;> cases first
  distinct := (order.repairable.repaired made).distinct
  steered := by
    have kept := made.labelNames_subset (fixes + 1)
    have target : site.target ∈ labelNames (site.before.reverse ++ (old ++ site.after)) := by
      obtain ⟨i, inside, conditional, same⟩ := made.exists_branch
      rw [← same]
      exact order.steered.targeted i (by simp [inside]) conditional
    intro i inside steers
    simp only [List.mem_append] at inside
    rcases inside with up | inside | down
    · exact kept (order.steered i (by simp_all) steers)
    · rcases Site.operand_cases inside with rfl | own
      · exact kept target
      · rw [labelNames_append, labelNames_append]
        exact List.mem_append_right _ (List.mem_append_left _ own)
    · exact kept (order.steered i (by simp_all) steers)
  closed := by
    have rest := made.closed_after returns order.closed
    exact (rest.prepend _).prepend _
  free := fun n larger => (order.repairable.repaired made).not_mem_labelNames larger

end Ordered

namespace Stream

variable {name : String} {m : Mnemonic}

theorem ordered_repairUpTo (returns : (m == .rts || m == .rti) = true) (bound : Nat) (s : Stream)
    (order : Ordered name m s.fixes s.lines) :
    Ordered name m (s.repairUpTo bound).1.fixes (s.repairUpTo bound).1.lines := by
  refine repairUpTo_keeps (P := fun s => Ordered name m s.fixes s.lines) bound ?_ order
  intro s site old landing made shape order
  rw [shape] at order
  rw [lines_repairSite]
  exact order.repaired returns made

end Stream

end Code

open Code (Stream Line labelNames ClosedBy Ordered WellFormed Site)
open Symbols (Function)

/-- Optimizing and repairing a stream in good order goes through and leaves it well formed. -/
theorem finish_ordered {name : String} {m : Mnemonic} {s : Stream}
    (returns : (m == .rts || m == .rti) = true) (order : Ordered name m s.fixes s.lines)
    (level : Int64) : ∃ final, finish level s = .ok final ∧ WellFormed name m final.lines := by
  obtain ⟨final, ok⟩ := finish_ok level order.steered.targeted
  refine ⟨final, ok, ?_⟩
  have optimized : Ordered name m (if 1 ≤ level then s.optimize else s).fixes
      (if 1 ≤ level then s.optimize else s).lines := by
    split
    · rw [Stream.optimize, Stream.fixes_optimizeUpTo]
      exact order.drops returns (s.drops_optimizeUpTo _)
    · exact order
  have repaired := Stream.ordered_repairUpTo returns
    (2 * (if 1 ≤ level then s.optimize else s).branchCount + 1) _ optimized
  unfold finish Stream.repair at ok
  split at ok
  · next same =>
    cases ok
    rw [same] at repaired
    exact repaired.toWellFormed
  · cases ok

namespace Lowering

/-- The texts of labels that code generation or a repair may make up. -/
def IsMadeUp (text : String) : Prop :=
  (∃ l : Label, l.isNumbered = true ∧ l.text = text) ∨
    ∃ n, text = Site.pastLabel n ∨ text = Site.jumpLabel n

namespace Label

theorem head?_text (l : Label) : l.text.toList.head? = some '.' := by
  have dotted {stem : String} (rest : String) (starts : stem.toList.head? = some '.') :
      (stem ++ rest).toList.head? = some '.' := by
    rw [String.toList_append, List.head?_append, starts]
    rfl
  cases l with
  | switchBody n k | switchNext n k => exact dotted _ (dotted _ (dotted _ rfl))
  | _ => exact dotted _ rfl

theorem text_ne_repair {l : Label} (numbered : l.isNumbered = true) (n : Nat) :
    l.text ≠ Site.pastLabel n ∧ l.text ≠ Site.jumpLabel n := by
  have other (stem : String) (plain : stem.toList.all (fun c => !c.isDigit) = true)
      (unknown : ofParts? stem l.number l.arm = none) : l.text ≠ stem ++ toString n := by
    intro same
    have parts : l.stem.toList ++ (Nat.toDigits 10 l.number ++ l.ending) =
        stem.toList ++ (Nat.toDigits 10 n ++ []) := by
      rw [← toList_text numbered, same, String.toList_append, List.append_nil]
      exact congrArg _ Nat.toList_repr
    obtain ⟨stems, -⟩ := Text.split_number (isDigit_stem numbered) (by simpa using plain)
      l.takeWhile_ending rfl parts
    have known := ofParts?_stem numbered
    rw [String.toList_injective stems, unknown] at known
    cases known
  exact ⟨other ".fix" (by decide +kernel) rfl, other ".fixup" (by decide +kernel) rfl⟩

end Label

/-- Every label that is made up starts with a dot. -/
theorem IsMadeUp.head?_eq {text : String} (made : IsMadeUp text) :
    text.toList.head? = some '.' := by
  rcases made with ⟨l, -, rfl⟩ | ⟨n, rfl | rfl⟩
  · exact l.head?_text
  · simp [Site.pastLabel]
  · simp [Site.jumpLabel]

theorem not_isMadeUp {text : String} (plain : text.toList.all (fun c => !c.isDigit) = true) :
    ¬IsMadeUp text := by
  have plain : ∀ c ∈ text.toList, c.isDigit = false := by simpa using plain
  have digit (n : Nat) : ∃ c ∈ Nat.toDigits 10 n, c.isDigit = true := by
    obtain ⟨c, inside⟩ := List.exists_mem_of_ne_nil _ (Nat.toDigits_ne_nil (n := n) (b := 10))
    exact ⟨c, inside, Nat.isDigit_of_mem_toDigits (by decide) (by decide) inside⟩
  have repair {stem : String} {n : Nat} (same : text = stem ++ toString n) : False := by
    obtain ⟨c, inside, isDigit⟩ := digit n
    have member : c ∈ text.toList := by
      rw [same, String.toList_append]
      exact List.mem_append_right _ (Nat.toList_repr ▸ inside)
    rw [plain c member] at isDigit
    cases isDigit
  rintro (⟨l, numbered, rfl⟩ | ⟨n, same | same⟩)
  · obtain ⟨c, inside, isDigit⟩ := digit l.number
    have member : c ∈ l.text.toList := by
      rw [Label.toList_text numbered]
      exact List.mem_append_right _ (List.mem_append_left _ inside)
    rw [plain c member] at isDigit
    cases isDigit
  · exact repair same
  · exact repair same

end Lowering

/-- The return that ends a function. -/
def Symbols.Function.closing (f : Function) : Mnemonic :=
  if f.interrupt then .rti else .rts

namespace Lowering

/-- A step whose last line is the return of the function. -/
abbrev Closes : Gen Unit → Prop :=
  Finishes fun scope code => ClosedBy scope.function.closing code

namespace Closes

theorem emitReturn : Closes emitReturn := by
  intro scope c d ok
  unfold Symbols.Function.closing
  obtain ⟨_, _, ⟨⟩, ok⟩ := bind_inv ok
  cases interrupt : scope.function.interrupt with
  | true | false =>
    rw [interrupt] at ok
    cases ok
    exact ⟨c.code, _, [], rfl, rfl, fun _ inside => by cases inside⟩

/-- Statements of which the last one is a return. -/
theorem stmts {body : List Source.Stmt} (ends : endsInReturn body = true) :
    Closes (stmts body) := by
  induction body with
  | nil => cases ends
  | cons s rest ih =>
    rw [Lowering.stmts]
    cases rest with
    | cons next others =>
      rw [endsInReturn, List.getLast?_cons_cons] at ends
      exact .bind fun _ => ih ends
    | nil =>
      cases s with
      | ret loc value =>
        rw [stmt, Lowering.stmts]
        exact .last (.bind fun _ => .returnStmt emitReturn value)
      | _ => cases ends

theorem functionBody (f : Function) : Closes (functionBody f) := by
  unfold Lowering.functionBody
  cases f.body with
  | none => exact emitReturn
  | some block =>
    cases ends : endsInReturn block.body with
    | false =>
      simp only [ends]
      exact .bind fun _ => emitReturn
    | true =>
      simp only [ends, Source.Block.toStmt, stmt]
      exact .last (.bind fun _ => stmts ends)

end Closes

/-- The code of a function is well formed and has none of the labels of repairs. -/
theorem ordered_function {f : Function} {scope : Scope} {c d : Context}
    (named : f.name.toList.head? ≠ some '.') (distinct : f.labels.Nodup)
    (own : ∀ name ∈ f.labels, ¬IsMadeUp (Label.source name).text)
    (placed : ∀ name ∈ f.gotos, name ∈ f.labels) (begins : c.code = []) (outside : c.exits = [])
    (ok : function f scope c = .ok () d) : Ordered f.name scope.function.closing 0 d.code := by
  have grows : Grows (f.name :: sourceTexts f.labels) (fun _ => False) c d :=
    (places_function_closed placed scope c (outside ▸ fun _ inside => by cases inside)).of_ok ok
  have madeUp {name : String} (opens : Opens c d name) : IsMadeUp name := by
    obtain ⟨l, text, within⟩ := opens
    exact .inl ⟨l, within.isNumbered, text⟩
  have apart : ∀ name ∈ f.name :: sourceTexts f.labels, ¬IsMadeUp name := by
    refine List.forall_mem_cons.mpr ⟨fun made => named made.head?_eq, fun text inside => ?_⟩
    obtain ⟨name, among, rfl⟩ := List.mem_map.mp inside
    exact own name among
  exact {
    starts := by
      have body : Places (sourceTexts f.labels) (fun _ => True) (functionBody f) :=
        places_functionBody fun _ _ => trivial
      obtain ⟨_, labelled, ⟨⟩, ok⟩ := bind_inv ok
      obtain ⟨lines, code, -⟩ :=
        ((body scope _ fun _ _ => ⟨trivial, fun _ _ => trivial⟩).of_ok ok).code
      rw [code]
      change (c.code ++ [Line.label f.name] ++ lines).head? = _
      rw [begins]
      rfl
    distinct := by
      refine grows.labelled.nodup_of_apart begins (List.nodup_cons.mpr ⟨fun again => ?_, ?_⟩)
        fun name inside opens => apart name inside (madeUp opens)
      · obtain ⟨name, -, same⟩ := List.mem_map.mp again
        exact named (same ▸ Label.head?_text _)
      · exact List.Pairwise.map _ (fun _ _ differs same =>
          differs ((String.append_right_inj _).mp same))
          distinct
    steered := by
      obtain ⟨lines, code, aimed, -⟩ := grows.code
      rw [code, begins]
      exact aimed.steered
    closed := by
      obtain ⟨_, labelled, -, ok⟩ := bind_inv ok
      exact Closes.functionBody f scope labelled d ok
    free := by
      intro n _
      constructor
      · intro inside
        rcases grows.labelled.mem_cases begins inside with mine | ⟨l, text, within⟩
        · exact apart _ mine (.inr ⟨n, .inl rfl⟩)
        · exact (Label.text_ne_repair within.isNumbered n).1 text
      · intro inside
        rcases grows.labelled.mem_cases begins inside with mine | ⟨l, text, within⟩
        · exact apart _ mine (.inr ⟨n, .inr rfl⟩)
        · exact (Label.text_ne_repair within.isNumbered n).2 text }

end Lowering

namespace Generator

variable {g next : Generator} {f : Function} {s : Stream}

theorem function_of_generate (generated : g.generate f = (next, .ok s)) :
    ∃ context, Lowering.function f ⟨g.symbols, f⟩ { trampolines := g.trampolines } =
      .ok () context ∧ s = { name := f.name, lines := context.code } := by
  unfold generate at generated
  split at generated
  · cases generated
  · split at generated
    · next context ok =>
      cases generated
      exact ⟨context, ok, rfl⟩
    · cases generated

end Generator

/--
The final stream of a function is well formed, optimized or not. The name of the function and the
labels of the source must not look like labels that are made up, and no label may be there twice.
-/
theorem finish_wellFormed {g next : Generator} {f : Function} {s : Stream}
    (named : f.name.toList.head? ≠ some '.') (distinct : f.labels.Nodup)
    (own : ∀ name ∈ f.labels, ¬Lowering.IsMadeUp (Lowering.Label.source name).text)
    (placed : ∀ name ∈ f.gotos, name ∈ f.labels) (generated : g.generate f = (next, .ok s))
    (level : Int64) :
    ∃ final, finish level s = .ok final ∧ WellFormed f.name f.closing final.lines := by
  obtain ⟨context, ok, rfl⟩ := Generator.function_of_generate generated
  refine finish_ordered ?_ (Lowering.ordered_function named distinct own placed rfl rfl ok) level
  unfold Symbols.Function.closing
  split <;> rfl

/--
An interrupt handler with a loop that is left by a `goto` to a label like those of repairs, and with
a choice that ends in a return.
-/
def handler : Function :=
  { name := "nmi", interrupt := true, body := some ⟨{},
      [.whileLoop {} (.binary .lt (.var "X" .absent) (.int 9))
        (.ifElse {} (.binary .eq (.var "Y" .absent) (.int 1)) (.goto {} "fixup")
          (some (.ret {} .absent))),
       .expr { label := "fixup" } .nothing,
       .ret {} .absent]⟩ }

theorem handler_generates : ∃ next s,
    ({ symbols := {} } : Generator).generate handler = (next, .ok s) := by
  have evaluated : (({ symbols := {} } : Generator).generate handler).2.toOption.isSome = true := by
    decide +kernel
  rcases made : ({ symbols := {} } : Generator).generate handler with ⟨next, _ | s⟩
  · rw [made] at evaluated
    cases evaluated
  · exact ⟨next, s, rfl⟩

theorem handler_wellFormed : handler.labels = ["fixup"] ∧
    ¬Lowering.IsMadeUp (Lowering.Label.source "fixup").text ∧
    ∃ next s, ({ symbols := {} } : Generator).generate handler = (next, .ok s) ∧
      ∀ level, ∃ final, finish level s = .ok final ∧ WellFormed "nmi" .rti final.lines := by
  have labels : handler.labels = ["fixup"] := by decide
  have own : ¬Lowering.IsMadeUp (Lowering.Label.source "fixup").text :=
    Lowering.not_isMadeUp (by decide +kernel)
  obtain ⟨next, s, generated⟩ := handler_generates
  refine ⟨labels, own, next, s, generated, fun level =>
    finish_wellFormed (by decide) (by decide) ?_ (by decide) generated level⟩
  rw [labels]
  exact List.forall_mem_singleton.mpr own

end Backend6502
