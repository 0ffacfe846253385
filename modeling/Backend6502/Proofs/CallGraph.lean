import Backend6502.Proofs.SafeStatements
import Backend6502.Symbols.Reachable
import Mathlib.Data.List.Nodup
import Mathlib.Data.List.Perm.Subperm

/-!
# The call graph

A function calls what its body has a call of, at any depth. The functions that are marked as
reachable are those with a path of calls from `main` or an interrupt handler: whatever is marked has
such a path, and when the queue is empty everything that is marked has had its calls followed. The
bound suffices, since a function enters the queue only once.
-/

namespace Backend6502

namespace Source

namespace Expr

def parts : Expr → List Expr
  | .call _ args => args
  | .binary _ lhs rhs => [lhs, rhs]
  | .unary _ operand | .incDec _ operand => [operand]
  | .var _ index => [index]
  | .absent | .nothing | .int _ => []

/-- There is a call of the name in the expression. -/
inductive Calls (name : String) : Expr → Prop where
  | call (args : List Expr) : Calls name (.call name args)
  | part {e inner : Expr} (inside : inner ∈ e.parts) (calls : Calls name inner) : Calls name e

variable {name : String}

theorem mem_callsAll {list : List Expr} :
    name ∈ Expr.callsAll list ↔ ∃ e ∈ list, name ∈ e.calls := by
  induction list with
  | nil => simp [Expr.callsAll]
  | cons e rest ih => simp [Expr.callsAll, ih]

theorem mem_calls {e : Expr} :
    name ∈ e.calls ↔ (∃ args, e = .call name args) ∨ ∃ inner ∈ e.parts, name ∈ inner.calls := by
  cases e <;> simp [Expr.calls, parts, mem_callsAll, eq_comm]

theorem sizeOf_part {e inner : Expr} (inside : inner ∈ e.parts) : sizeOf inner < sizeOf e := by
  cases e with
  | call callee args =>
    have smaller : sizeOf inner < sizeOf args := List.sizeOf_lt_of_mem inside
    simp only [Expr.call.sizeOf_spec]
    omega
  | binary op lhs rhs =>
    rcases List.mem_pair.mp inside with rfl | rfl <;> simp only [Expr.binary.sizeOf_spec] <;> omega
  | absent | nothing | int value => cases inside
  | _ =>
    rw [List.mem_singleton.mp inside]
    simp +arith

theorem calls_of_mem {e : Expr} (inside : name ∈ e.calls) : e.Calls name := by
  rcases mem_calls.mp inside with ⟨args, rfl⟩ | ⟨inner, listed, deeper⟩
  · exact .call args
  · exact .part listed (calls_of_mem deeper)
termination_by sizeOf e
decreasing_by exact sizeOf_part listed

theorem mem_calls_iff {e : Expr} : name ∈ e.calls ↔ e.Calls name := by
  refine ⟨calls_of_mem, ?_⟩
  intro calls
  induction calls with
  | call args => exact mem_calls.mpr (.inl ⟨args, rfl⟩)
  | part listed _ ih => exact mem_calls.mpr (.inr ⟨_, listed, ih⟩)

end Expr

namespace Stmt

def exprs : Stmt → List Expr
  | .expr _ e | .ret _ e | .strobe _ e => [e]
  | .forLoop _ init cond update _ => [init, cond, update]
  | .whileLoop _ cond _ | .doWhile _ _ cond | .ifElse _ cond _ _ | .switch _ cond _ => [cond]
  | .block .. | .leave _ | .next _ | .asm .. | .goto .. => []

def parts : Stmt → List Stmt
  | .block _ body => body
  | .forLoop _ _ _ _ body | .whileLoop _ _ body | .doWhile _ body _ => [body]
  | .ifElse _ _ thenBody elseBody => thenBody :: elseBody.toList
  | .switch _ _ arms => arms.flatMap (·.body)
  | .expr .. | .ret .. | .strobe .. | .leave _ | .next _ | .asm .. | .goto .. => []

/-- There is a call of the name in the statement. -/
inductive Calls (name : String) : Stmt → Prop where
  | expr {s : Stmt} {e : Expr} (inside : e ∈ s.exprs) (calls : e.Calls name) : Calls name s
  | part {s inner : Stmt} (inside : inner ∈ s.parts) (calls : Calls name inner) : Calls name s

variable {name : String}

theorem mem_callsAll {list : List Stmt} :
    name ∈ Stmt.callsAll list ↔ ∃ s ∈ list, name ∈ s.calls := by
  induction list with
  | nil => simp [Stmt.callsAll]
  | cons s rest ih => simp [Stmt.callsAll, ih]

theorem mem_callsArms {arms : List (Arm Stmt)} :
    name ∈ Stmt.callsArms arms ↔ ∃ s ∈ arms.flatMap (·.body), name ∈ s.calls := by
  induction arms with
  | nil => simp [Stmt.callsArms]
  | cons arm rest ih =>
    rw [Stmt.callsArms, Stmt.callsArm, List.mem_append, ih, mem_callsAll]
    simp [or_and_right, exists_or]

theorem mem_calls {s : Stmt} :
    name ∈ s.calls ↔ (∃ e ∈ s.exprs, name ∈ e.calls) ∨ ∃ inner ∈ s.parts, name ∈ inner.calls := by
  cases s with
  | ifElse loc cond thenBody elseBody =>
    cases elseBody <;> simp [Stmt.calls, exprs, parts]
  | switch loc selector arms => simp [Stmt.calls, exprs, parts, mem_callsArms]
  | doWhile loc body cond => simp [Stmt.calls, exprs, parts, or_comm]
  | _ => simp [Stmt.calls, exprs, parts, mem_callsAll, or_assoc]

theorem sizeOf_part {s inner : Stmt} (inside : inner ∈ s.parts) : sizeOf inner < sizeOf s := by
  cases s with
  | block loc body =>
    have smaller : sizeOf inner < sizeOf body := List.sizeOf_lt_of_mem inside
    simp only [Stmt.block.sizeOf_spec]
    omega
  | ifElse loc cond thenBody elseBody =>
    cases elseBody with
    | none =>
      rw [List.mem_singleton.mp inside]
      simp +arith
    | some other =>
      rcases List.mem_pair.mp inside with rfl | rfl <;> simp +arith
  | switch loc selector arms =>
    obtain ⟨⟨values, isDefault, body⟩, listed, within⟩ := List.mem_flatMap.mp inside
    have around : sizeOf (Arm.mk values isDefault body) < sizeOf arms :=
      List.sizeOf_lt_of_mem listed
    have smaller : sizeOf inner < sizeOf body := List.sizeOf_lt_of_mem within
    simp only [Arm.mk.sizeOf_spec] at around
    simp only [Stmt.switch.sizeOf_spec]
    omega
  | forLoop loc init cond update body | whileLoop loc cond body | doWhile loc body cond =>
    rw [List.mem_singleton.mp inside]
    simp +arith
  | _ => cases inside

theorem calls_of_mem {s : Stmt} (inside : name ∈ s.calls) : s.Calls name := by
  rcases mem_calls.mp inside with ⟨e, listed, deeper⟩ | ⟨inner, listed, deeper⟩
  · exact .expr listed (Expr.mem_calls_iff.mp deeper)
  · exact .part listed (calls_of_mem deeper)
termination_by sizeOf s
decreasing_by exact sizeOf_part listed

theorem mem_calls_iff {s : Stmt} : name ∈ s.calls ↔ s.Calls name := by
  refine ⟨calls_of_mem, ?_⟩
  intro calls
  induction calls with
  | expr listed calls => exact mem_calls.mpr (.inl ⟨_, listed, Expr.mem_calls_iff.mpr calls⟩)
  | part listed _ ih => exact mem_calls.mpr (.inr ⟨_, listed, ih⟩)

end Stmt

end Source

namespace Symbols

open Lowering (callsOf)

def Function.Calls (f : Function) (name : String) : Prop :=
  ∃ block, f.body = some block ∧ block.toStmt.Calls name

theorem mem_callsOf {f : Function} {name : String} : name ∈ callsOf f ↔ f.Calls name := by
  unfold callsOf Function.Calls
  cases f.body with
  | none => simp
  | some block =>
    change name ∈ block.toStmt.calls ↔ _
    rw [Source.Stmt.mem_calls_iff]
    simp

theorem mem_newNames {known names : List String} {name : String} :
    name ∈ newNames known names ↔ name ∈ names ∧ name ∉ known := by
  induction names generalizing known with
  | nil => simp [newNames]
  | cons first rest ih =>
    rw [newNames]
    split
    · next seen =>
      rw [ih]
      grind
    · next unseen =>
      rw [List.mem_cons, ih]
      grind

theorem nodup_newNames (known names : List String) : (newNames known names).Nodup := by
  induction names generalizing known with
  | nil => exact .nil
  | cons first rest ih =>
    rw [newNames]
    split
    · exact ih known
    · refine List.nodup_cons.mpr ⟨?_, ih _⟩
      intro again
      exact (mem_newNames.mp again).2 List.mem_cons_self

namespace Table

variable {f : Function} {callee : String}

/-- There is a path of calls to the function from `main` or from an interrupt handler. -/
inductive Reached (t : Table) : Function → Prop where
  | start {f : Function} (inside : f ∈ t.functions) (root : f.name = "main" ∨ f.interrupt = true) :
      Reached t f
  | call {f g : Function} (reached : Reached t f) (calls : f.Calls g.name)
      (inside : g ∈ t.functions) : Reached t g

variable {t : Table}

theorem of_getFunction? {name : String} (found : t.getFunction? name = some f) :
    f ∈ t.functions ∧ f.name = name :=
  ⟨List.mem_of_find?_eq_some found, by simpa using List.find?_some found⟩

theorem mem_callees {name : String} :
    callee ∈ t.callees name ↔ ∃ f g, t.getFunction? name = some f ∧ f.Calls callee ∧
      t.getFunction? callee = some g := by
  unfold callees
  cases found : t.getFunction? name with
  | none => simp
  | some f =>
    have collected : callee ∈ t.callees name ↔
        callee ∈ callsOf f ∧ (t.getFunction? callee).isSome = true := by
      unfold callees callsOf
      rw [found]
      cases body : f.body <;> simp [body]
    unfold callees at collected
    rw [found, mem_callsOf, Option.isSome_iff_exists] at collected
    rw [collected]
    simp

/-- The marked functions outside the queue have their callees marked. -/
structure Frontier (t : Table) (bound : Nat) (marked queue : List String) : Prop where
  nodup : marked.Nodup
  known : ∀ name ∈ marked, name ∈ t.functions.map (·.name)
  followed : ∃ done, marked = done ++ queue ∧ t.functions.length ≤ bound + done.length ∧
    ∀ name ∈ done, ∀ callee ∈ t.callees name, callee ∈ marked

namespace Frontier

variable {bound : Nat} {marked queue : List String}

theorem start (distinct : t.roots.Nodup) : Frontier t t.functions.length t.roots t.roots where
  nodup := distinct
  known name inside := by
    obtain ⟨f, listed, rfl⟩ := List.mem_map.mp inside
    exact List.mem_map_of_mem (List.mem_of_mem_filter listed)
  followed := ⟨[], rfl, Nat.le_refl _, fun _ inside => by cases inside⟩

theorem step {name : String} (frontier : Frontier t (bound + 1) marked (name :: queue)) :
    Frontier t bound (marked ++ newNames marked (t.callees name))
      (queue ++ newNames marked (t.callees name)) where
  nodup := by
    refine List.nodup_append.mpr ⟨frontier.nodup, nodup_newNames _ _, ?_⟩
    rintro known inside _ found rfl
    exact (mem_newNames.mp found).2 inside
  known callee inside := by
    rcases List.mem_append.mp inside with old | new
    · exact frontier.known callee old
    · obtain ⟨_, g, -, -, found⟩ := mem_callees.mp (mem_newNames.mp new).1
      obtain ⟨listed, rfl⟩ := of_getFunction? found
      exact List.mem_map_of_mem listed
  followed := by
    obtain ⟨done, shape, room, closed⟩ := frontier.followed
    refine ⟨done ++ [name], by simp [shape], ?_, ?_⟩
    · rw [List.length_append, List.length_singleton]
      omega
    · intro known inside callee called
      rw [List.mem_append]
      rcases List.mem_append.mp inside with old | new
      · exact .inl (closed known old callee called)
      · rw [List.mem_singleton.mp new] at called
        by_cases before : callee ∈ marked
        · exact .inl before
        · exact .inr (mem_newNames.mpr ⟨called, before⟩)

/-- When the bound is used up every function of the table was followed. -/
theorem queue_eq_nil (frontier : Frontier t 0 marked queue) : queue = [] := by
  obtain ⟨done, rfl, room, -⟩ := frontier.followed
  have fits : (done ++ queue).length ≤ (t.functions.map (·.name)).length :=
    (List.subperm_of_subset frontier.nodup frontier.known).length_le
  rw [List.length_append, List.length_map] at fits
  exact List.length_eq_zero_iff.mp (by omega)

theorem closed_of_done (frontier : Frontier t bound marked []) {name callee : String}
    (inside : name ∈ marked) (called : callee ∈ t.callees name) : callee ∈ marked := by
  obtain ⟨done, shape, -, closed⟩ := frontier.followed
  rw [List.append_nil] at shape
  exact closed name (shape ▸ inside) callee called

theorem closed (frontier : Frontier t bound marked queue) {name callee : String}
    (inside : name ∈ t.follow bound marked queue) (called : callee ∈ t.callees name) :
    callee ∈ t.follow bound marked queue := by
  induction bound generalizing marked queue with
  | zero =>
    cases frontier.queue_eq_nil
    exact frontier.closed_of_done inside called
  | succ bound ih =>
    cases queue with
    | nil => exact frontier.closed_of_done inside called
    | cons first rest => exact ih frontier.step inside

end Frontier

theorem mem_follow_of_marked {bound : Nat} {marked queue : List String} {name : String}
    (inside : name ∈ marked) : name ∈ t.follow bound marked queue := by
  induction bound generalizing marked queue with
  | zero => exact inside
  | succ bound ih =>
    cases queue with
    | nil => exact inside
    | cons first rest => exact ih (List.mem_append_left _ inside)

theorem of_mem_follow {P : String → Prop}
    (called : ∀ name callee, P name → callee ∈ t.callees name → P callee)
    {bound : Nat} {marked queue : List String} (before : ∀ name ∈ marked, P name)
    (waiting : ∀ name ∈ queue, P name) {name : String}
    (inside : name ∈ t.follow bound marked queue) :
    P name := by
  induction bound generalizing marked queue with
  | zero => exact before name inside
  | succ bound ih =>
    cases queue with
    | nil => exact before name inside
    | cons first rest =>
      have found : ∀ callee ∈ newNames marked (t.callees first), P callee := by
        intro callee new
        exact called first callee (waiting first List.mem_cons_self) (mem_newNames.mp new).1
      refine ih ?_ ?_ inside
      · intro other among
        exact (List.mem_append.mp among).elim (before other) (found other)
      · intro other among
        refine (List.mem_append.mp among).elim (fun later => ?_) (found other)
        exact waiting other (List.mem_cons_of_mem _ later)

theorem mem_reachable_of_root (inside : f ∈ t.functions)
    (root : f.name = "main" ∨ f.interrupt = true) : f.name ∈ t.reachable := by
  refine mem_follow_of_marked (List.mem_map_of_mem (List.mem_filter.mpr ⟨inside, ?_⟩))
  simpa using root

theorem mem_reachable_of_callee (distinct : t.roots.Nodup) {name : String}
    (inside : name ∈ t.reachable) (called : callee ∈ t.callees name) : callee ∈ t.reachable :=
  (Frontier.start distinct).closed inside called

theorem getFunction?_of_unique (inside : f ∈ t.functions)
    (unique : ∀ g ∈ t.functions, g.name = f.name → g = f) : t.getFunction? f.name = some f := by
  cases found : t.getFunction? f.name with
  | none => simpa using List.find?_eq_none.mp found f inside
  | some g =>
    obtain ⟨listed, named⟩ := of_getFunction? found
    rw [unique g listed named]

theorem getFunction?_of_mem (distinct : (t.functions.map (·.name)).Nodup)
    (inside : f ∈ t.functions) : t.getFunction? f.name = some f :=
  getFunction?_of_unique inside fun _ listed named =>
    List.inj_on_of_nodup_map distinct listed inside named

theorem Reached.mem (reached : t.Reached f) : f ∈ t.functions := by
  cases reached with
  | start inside | call _ _ inside => exact inside

/-- The functions that are marked are those with a path of calls to them. -/
theorem mem_reachable_iff (distinct : (t.functions.map (·.name)).Nodup) (inside : f ∈ t.functions) :
    f.name ∈ t.reachable ↔ t.Reached f := by
  have roots : t.roots.Nodup := distinct.sublist (List.filter_sublist.map _)
  constructor
  · have reached : f.name ∈ t.reachable →
        ∃ g, t.getFunction? f.name = some g ∧ t.Reached g := by
      refine of_mem_follow (P := fun name => ∃ g, t.getFunction? name = some g ∧ t.Reached g)
        ?_ ?_ ?_
      · rintro name callee ⟨g, found, reached⟩ called
        obtain ⟨_, h, same, calls, target⟩ := mem_callees.mp called
        cases found.symm.trans same
        obtain ⟨listed, rfl⟩ := of_getFunction? target
        exact ⟨h, target, .call reached calls listed⟩
      all_goals
        intro name start
        obtain ⟨g, listed, rfl⟩ := List.mem_map.mp start
        obtain ⟨within, root⟩ := List.mem_filter.mp listed
        exact ⟨g, getFunction?_of_mem distinct within, .start within (by simpa using root)⟩
    intro marked
    obtain ⟨g, found, path⟩ := reached marked
    cases (getFunction?_of_mem distinct inside).symm.trans found
    exact path
  · intro path
    clear inside
    induction path with
    | start listed root => exact mem_reachable_of_root listed root
    | @call g h reached calls listed ih =>
      have found := getFunction?_of_mem distinct reached.mem
      have target := getFunction?_of_mem distinct listed
      exact mem_reachable_of_callee roots ih (mem_callees.mpr ⟨g, h, found, calls, target⟩)

end Table

end Symbols

end Backend6502
