import Backend6502.Symbols.Table
import Mathlib.Data.List.Basic
import Mathlib.Data.List.Induction

/-!
# Symbol tables

Variables and functions are defined one after another, and a definition that is refused is passed
over. Whatever was asked for, the names and sizes of variables are in order, and a definition that
is accepted adds one entry and leaves the others alone.

A function never takes the name of a variable. A variable can take the name of a function that was
defined before it, and in no other way does a name come to stand for both.
-/

namespace Backend6502.Symbols

variable {α : Type} {comesBefore : α → α → Bool} {a : α} {list : List α}

theorem mem_insertBy {b : α} : b ∈ insertBy comesBefore a list ↔ b = a ∨ b ∈ list := by
  induction list with
  | nil => simp [insertBy]
  | cons c rest ih =>
    rw [insertBy]
    split
    · exact List.mem_cons
    · rw [List.mem_cons, ih, List.mem_cons]
      exact or_left_comm

theorem perm_insertBy (comesBefore : α → α → Bool) (a : α) (list : List α) :
    (insertBy comesBefore a list).Perm (a :: list) := by
  induction list with
  | nil => exact .refl _
  | cons b rest ih =>
    rw [insertBy]
    split
    · exact .refl _
    · exact (ih.cons b).trans (.swap a b rest)

theorem nodup_insertBy {key : α → String} (distinct : (list.map key).Nodup)
    (new : list.find? (key · == key a) = none) : ((insertBy comesBefore a list).map key).Nodup := by
  rw [((perm_insertBy _ _ _).map _).nodup_iff, List.map_cons, List.nodup_cons]
  refine ⟨fun inside => ?_, distinct⟩
  obtain ⟨other, member, same⟩ := List.mem_map.mp inside
  have absent := List.find?_eq_none.mp new other member
  exact absent (beq_iff_eq.mpr same)

namespace Table

variable {t t' : Table} {name : String} {v : Variable} {f : Function}

theorem of_getVariable? (found : t.getVariable? name = some v) : v ∈ t.vars ∧ v.name = name := by
  have same := List.find?_some (p := fun v : Variable => v.name == name) found
  exact ⟨List.mem_of_find?_eq_some found, eq_of_beq same⟩

/-- The table is built by definitions. -/
inductive Defined : Table → Prop where
  | empty : Defined {}
  | addVariable {t t' : Table} {v : Variable} (before : Defined t)
      (added : t.defineVariable v = .ok t') : Defined t'
  | addFunction {t t' : Table} {f : Function} (before : Defined t)
      (added : t.defineFunction f = .ok t') : Defined t'

theorem ne_of_not_isEmpty (named : ¬ name.isEmpty = true) : name ≠ "" := by
  rintro rfl
  exact named rfl

theorem defineVariable_inv (added : t.defineVariable v = .ok t') :
    v.name ≠ "" ∧ isReserved v.name = false ∧ t.getVariable? v.name = none ∧
      (elementSize v = 1 ∨ elementSize v = 2) ∧
      t' = { t with
        vars := insertBy (fun a b => a.name < b.name) { v with size := elementSize v }
          t.vars } := by
  unfold defineVariable at added
  split at added
  · cases added
  next named =>
    split at added
    · cases added
    next free =>
      split at added
      · cases added
      next new =>
        dsimp only at added
        split at added
        · next sized =>
          cases added
          exact ⟨ne_of_not_isEmpty named, eq_false_of_ne_true free,
            Option.not_isSome_iff_eq_none.mp new, sized, rfl⟩
        · cases added

theorem defineFunction_inv (added : t.defineFunction f = .ok t') :
    f.name ≠ "" ∧ t.getFunction? f.name = none ∧ t.getVariable? f.name = none ∧
      t' = { t with functions := insertBy declaredBefore f t.functions } := by
  unfold defineFunction at added
  split at added
  · cases added
  next named =>
    split at added
    · cases added
    next new =>
      split at added
      · cases added
      next apart =>
        cases added
        exact ⟨ne_of_not_isEmpty named, Option.not_isSome_iff_eq_none.mp new,
          Option.not_isSome_iff_eq_none.mp apart, rfl⟩

theorem defineFunction_vars (added : t.defineFunction f = .ok t') : t'.vars = t.vars := by
  obtain ⟨-, -, -, rfl⟩ := defineFunction_inv added
  rfl

section

variable (defined : Defined t)

include defined

/-- What is true of each variable that is added is true of all of them. -/
theorem Defined.forall_vars {P : Variable → Prop}
    (new : ∀ {t t' : Table} {v : Variable}, t.defineVariable v = .ok t' →
      P { v with size := elementSize v }) : ∀ v ∈ t.vars, P v := by
  induction defined with
  | empty => exact nofun
  | addVariable _ added ih =>
    intro other member
    obtain ⟨-, -, -, -, rfl⟩ := defineVariable_inv added
    rcases mem_insertBy.mp member with rfl | old
    · exact new added
    · exact ih other old
  | addFunction _ added ih =>
    rw [defineFunction_vars added]
    exact ih

theorem Defined.isReserved_eq_false : ∀ v ∈ t.vars, isReserved v.name = false :=
  defined.forall_vars fun added => (defineVariable_inv added).2.1

/-- Elements have one byte or two. -/
theorem Defined.size_eq : ∀ v ∈ t.vars, v.size = 1 ∨ v.size = 2 :=
  defined.forall_vars fun added => (defineVariable_inv added).2.2.2.1

theorem Defined.names_nodup : (t.vars.map (·.name)).Nodup := by
  induction defined with
  | empty => exact List.nodup_nil
  | addVariable _ added ih =>
    obtain ⟨-, -, new, -, rfl⟩ := defineVariable_inv added
    exact nodup_insertBy ih new
  | addFunction _ added ih =>
    rw [defineFunction_vars added]
    exact ih

theorem Defined.getVariable?_reserved (reserved : isReserved name = true) :
    t.getVariable? name = none := by
  rw [getVariable?, List.find?_eq_none]
  intro v member same
  have free := defined.isReserved_eq_false v member
  rw [eq_of_beq same, reserved] at free
  cases free

end

end Table

/-- A definition that is asked for. -/
inductive Definition where
  | ofVariable (v : Variable)
  | ofFunction (f : Function)

section Inserting

variable {α : Type} {comesBefore : α → α → Bool} {p : α → Bool} {a : α} {list : List α}

theorem find?_insertBy_of_not (other : p a = false) :
    (insertBy comesBefore a list).find? p = list.find? p := by
  induction list with
  | nil => rw [insertBy, List.find?_cons, other]
  | cons b rest ih =>
    rw [insertBy]
    split
    · rw [List.find?_cons, other]
    · rw [List.find?_cons, List.find?_cons, ih]

theorem find?_insertBy_of_new (own : p a = true) (new : list.find? p = none) :
    (insertBy comesBefore a list).find? p = some a := by
  induction list with
  | nil => rw [insertBy, List.find?_cons, own]
  | cons b rest ih =>
    rw [insertBy]
    split
    · rw [List.find?_cons, own]
    · have apart : p b = false := by
        simpa using List.find?_eq_none.mp new b List.mem_cons_self
      rw [List.find?_cons, apart] at new ⊢
      exact ih new

end Inserting

namespace Table

variable {t t' : Table} {v : Variable} {name : String}

/-- Adds what is defined, or says why it is refused. -/
def define (t : Table) : Definition → Except DefinitionError Table
  | .ofVariable v => t.defineVariable v
  | .ofFunction f => t.defineFunction f

/-- The table after a definition, which may have been refused. -/
def attempt (t : Table) (d : Definition) : Table :=
  match t.define d with
  | .ok t' => t'
  | .error _ => t

/-- The table after definitions one after another, from the empty one on. -/
def attemptAll (ds : List Definition) : Table :=
  ds.foldl attempt {}

/-- Names and sizes are as code generation relies on. -/
structure WellFormed (t : Table) : Prop where
  named : ∀ v ∈ t.vars, v.name ∉ ["X", "Y", "cctmp", ""]
  sized : ∀ v ∈ t.vars, v.size = 1 ∨ v.size = 2
  pointers : ∀ v ∈ t.vars, v.pointer = true → v.size = 2
  variables_distinct : (t.vars.map (·.name)).Nodup
  functions_named : ∀ f ∈ t.functions, f.name ≠ ""
  functions_distinct : (t.functions.map (·.name)).Nodup

/-- The name stands for a variable and for a function. -/
def Clashes (t : Table) (name : String) : Prop :=
  (t.getVariable? name).isSome = true ∧ (t.getFunction? name).isSome = true

/--
The second table has one entry more, under the name of the definition, and is the same elsewhere.
-/
def Adds (t : Table) : Definition → Table → Prop
  | .ofVariable v, t' =>
    t.getVariable? v.name = none ∧ t'.getVariable? v.name = some { v with size := elementSize v } ∧
      (∀ name, name ≠ v.name → t'.getVariable? name = t.getVariable? name) ∧
      t'.vars.Perm ({ v with size := elementSize v } :: t.vars) ∧ t'.functions = t.functions
  | .ofFunction f, t' =>
    t.getFunction? f.name = none ∧ t'.getFunction? f.name = some f ∧
      (∀ name, name ≠ f.name → t'.getFunction? name = t.getFunction? name) ∧
      t'.functions.Perm (f :: t.functions) ∧ t'.vars = t.vars

/-- A variable of this name was accepted when there was already such a function. -/
def DefinedLate (ds : List Definition) (name : String) : Prop :=
  ∃ before v after t', ds = before ++ .ofVariable v :: after ∧ v.name = name ∧
    ((attemptAll before).getFunction? name).isSome = true ∧
      (attemptAll before).defineVariable v = .ok t'

variable {d : Definition}

section Steps

variable {f : Function}

theorem adds_of_define (added : t.define d = .ok t') : t.Adds d t' := by
  cases d with
  | ofVariable v =>
    obtain ⟨-, -, new, -, rfl⟩ := defineVariable_inv added
    refine ⟨new, ?_, fun name other => ?_, perm_insertBy _ _ _, rfl⟩
    · exact find?_insertBy_of_new (beq_self_eq_true v.name) new
    · exact find?_insertBy_of_not (beq_false_of_ne other.symm)
  | ofFunction f =>
    obtain ⟨-, new, -, rfl⟩ := defineFunction_inv added
    refine ⟨new, ?_, fun name other => ?_, perm_insertBy _ _ _, rfl⟩
    · exact find?_insertBy_of_new (beq_self_eq_true f.name) new
    · exact find?_insertBy_of_not (beq_false_of_ne other.symm)

theorem attempt_of_ok (added : t.define d = .ok t') : t.attempt d = t' := by
  rw [attempt, added]

theorem attempt_of_error {e : DefinitionError} (refused : t.define d = .error e) :
    t.attempt d = t := by
  rw [attempt, refused]

theorem Clashes.define (clashes : t.Clashes name) (added : t.define d = .ok t') :
    t'.Clashes name := by
  obtain ⟨isVariable, isFunction⟩ := clashes
  cases d with
  | ofVariable v =>
    obtain ⟨new, -, others, -, same⟩ := adds_of_define added
    have other : name ≠ v.name := by
      rintro rfl
      simp [new] at isVariable
    refine ⟨others name other ▸ isVariable, ?_⟩
    rw [getFunction?, same]
    exact isFunction
  | ofFunction f =>
    obtain ⟨new, -, others, -, same⟩ := adds_of_define added
    have other : name ≠ f.name := by
      rintro rfl
      simp [new] at isFunction
    refine ⟨?_, others name other ▸ isFunction⟩
    rw [getVariable?, same]
    exact isVariable

theorem Clashes.of_define (clashes : t'.Clashes name) (added : t.define d = .ok t') :
    t.Clashes name ∨ ∃ v, d = .ofVariable v ∧ v.name = name ∧
      (t.getFunction? name).isSome = true := by
  obtain ⟨isVariable, isFunction⟩ := clashes
  cases d with
  | ofVariable v =>
    obtain ⟨-, -, others, -, same⟩ := adds_of_define added
    rw [getFunction?, same] at isFunction
    by_cases own : v.name = name
    · exact .inr ⟨v, rfl, own, isFunction⟩
    · rw [others name (Ne.symm own)] at isVariable
      exact .inl ⟨isVariable, isFunction⟩
  | ofFunction f =>
    obtain ⟨-, -, others, -, same⟩ := adds_of_define added
    obtain ⟨-, -, apart, -⟩ := defineFunction_inv added
    rw [getVariable?, same] at isVariable
    have other : name ≠ f.name := by
      rintro rfl
      rw [getVariable?] at apart
      rw [apart] at isVariable
      cases isVariable
    rw [others name other] at isFunction
    exact .inl ⟨isVariable, isFunction⟩

/--
The clashes after a definition: those before it, and the name of a function that a variable takes.
-/
theorem clashes_attempt :
    (t.attempt d).Clashes name ↔ t.Clashes name ∨ ∃ v t', d = .ofVariable v ∧ v.name = name ∧
      (t.getFunction? name).isSome = true ∧ t.defineVariable v = .ok t' := by
  cases result : t.define d with
  | error e =>
    rw [attempt_of_error result, or_iff_left]
    rintro ⟨v, t', rfl, -, -, added⟩
    cases result.symm.trans added
  | ok t' =>
    rw [attempt_of_ok result]
    constructor
    · intro clashes
      rcases clashes.of_define result with before | ⟨v, rfl, own, isFunction⟩
      · exact .inl before
      · exact .inr ⟨v, t', rfl, own, isFunction, result⟩
    · rintro (before | ⟨v, t'', rfl, rfl, isFunction, -⟩)
      · exact before.define result
      · obtain ⟨-, found, -, -, same⟩ := adds_of_define result
        refine ⟨found ▸ rfl, ?_⟩
        rw [getFunction?, same]
        exact isFunction

end Steps

section Runs

variable {ds : List Definition}

theorem attemptAll_concat : attemptAll (ds ++ [d]) = (attemptAll ds).attempt d :=
  List.foldl_concat _ _ _ _

theorem definedLate_concat :
    DefinedLate (ds ++ [d]) name ↔ DefinedLate ds name ∨ ∃ v t', d = .ofVariable v ∧ v.name = name ∧
      ((attemptAll ds).getFunction? name).isSome = true ∧
        (attemptAll ds).defineVariable v = .ok t' := by
  constructor
  · rintro ⟨before, v, after, t', whole, own, isFunction, added⟩
    rcases List.eq_nil_or_concat after with rfl | ⟨after, last, rfl⟩
    · obtain ⟨rfl, rfl⟩ := List.append_singleton_inj.mp whole
      exact .inr ⟨v, t', rfl, own, isFunction, added⟩
    · rw [List.concat_eq_append, ← List.cons_append, ← List.append_assoc] at whole
      obtain ⟨rfl, -⟩ := List.append_singleton_inj.mp whole
      exact .inl ⟨before, v, after, t', rfl, own, isFunction, added⟩
  · rintro (⟨before, v, after, t', rfl, own, isFunction, added⟩ | ⟨v, t', rfl, own, isFunction,
      added⟩)
    · exact ⟨before, v, after ++ [d], t', by simp, own, isFunction, added⟩
    · exact ⟨ds, v, [], t', rfl, own, isFunction, added⟩

/-- A name comes to stand for both only if a variable takes the name of a function. -/
theorem clashes_attemptAll : (attemptAll ds).Clashes name ↔ DefinedLate ds name := by
  induction ds using List.reverseRecOn with
  | nil =>
    constructor
    · rintro ⟨isVariable, -⟩
      cases isVariable
    · rintro ⟨before, v, after, t', whole, -⟩
      cases before <;> cases whole
  | append_singleton ds d ih => rw [attemptAll_concat, clashes_attempt, definedLate_concat, ih]

theorem Defined.attempt (defined : Defined t) : Defined (t.attempt d) := by
  cases result : t.define d with
  | error e =>
    rw [attempt_of_error result]
    exact defined
  | ok t' =>
    rw [attempt_of_ok result]
    cases d with
    | ofVariable v => exact defined.addVariable result
    | ofFunction f => exact defined.addFunction result

theorem defined_attemptAll (ds : List Definition) : Defined (attemptAll ds) := by
  induction ds using List.reverseRecOn with
  | nil => exact .empty
  | append_singleton ds d ih =>
    rw [attemptAll_concat]
    exact ih.attempt

/-- A table is built by definitions if those of its own entries build it. -/
theorem Defined.of_entries
    (same : attemptAll (t.vars.map .ofVariable ++ t.functions.map .ofFunction) = t) : Defined t :=
  same ▸ defined_attemptAll _

section

variable (defined : Defined t)

include defined

theorem Defined.name_ne_empty : ∀ v ∈ t.vars, v.name ≠ "" :=
  defined.forall_vars fun added => (defineVariable_inv added).1

/-- A pointer has two bytes, whatever size was asked for. -/
theorem Defined.size_of_pointer : ∀ v ∈ t.vars, v.pointer = true → v.size = 2 :=
  defined.forall_vars fun _ isPointer => if_pos isPointer

theorem Defined.functions_wellFormed :
    (∀ f ∈ t.functions, f.name ≠ "") ∧ (t.functions.map (·.name)).Nodup := by
  induction defined with
  | empty => exact ⟨nofun, List.nodup_nil⟩
  | addVariable _ added ih =>
    obtain ⟨-, -, -, -, rfl⟩ := defineVariable_inv added
    exact ih
  | addFunction _ added ih =>
    obtain ⟨named, new, -, rfl⟩ := defineFunction_inv added
    refine ⟨fun other member => ?_, nodup_insertBy ih.2 new⟩
    rcases mem_insertBy.mp member with rfl | old
    · exact named
    · exact ih.1 other old

theorem Defined.wellFormed : t.WellFormed where
  named := by
    intro v member
    have free := defined.isReserved_eq_false v member
    have named := defined.name_ne_empty v member
    simp only [isReserved, scratchCell, Bool.or_eq_false_iff, beq_eq_false_iff_ne] at free
    simp [free, named]
  sized := defined.size_eq
  pointers := defined.size_of_pointer
  variables_distinct := defined.names_nodup
  functions_named := defined.functions_wellFormed.1
  functions_distinct := defined.functions_wellFormed.2

end

end Runs

/--
After any definitions, in any order and accepted or not, names and sizes are in order and the names
that stand for a variable and a function are those that a variable took from a function. A further
definition that is refused leaves the table as it is; one that is accepted adds its entry.
-/
theorem wellFormed_attemptAll (ds : List Definition) :
    (attemptAll ds).WellFormed ∧
      (∀ name, (attemptAll ds).Clashes name ↔ DefinedLate ds name) ∧
      ∀ d, match (attemptAll ds).define d with
        | .error _ => (attemptAll ds).attempt d = attemptAll ds
        | .ok t' => (attemptAll ds).attempt d = t' ∧ (attemptAll ds).Adds d t' := by
  refine ⟨(defined_attemptAll ds).wellFormed, fun name => clashes_attemptAll, fun d => ?_⟩
  split
  · next refused => exact attempt_of_error refused
  · next added => exact ⟨attempt_of_ok added, adds_of_define added⟩

/-- A variable takes the name of a function, though a function cannot take that of a variable. -/
theorem clashes_of_function_first :
    ¬ ∀ (ds : List Definition) (name : String), ¬ (attemptAll ds).Clashes name := by
  intro apart
  apply apart [.ofFunction { name := "f" }, .ofVariable { name := "f" }] "f"
  rw [Clashes]
  decide

end Table

end Backend6502.Symbols
