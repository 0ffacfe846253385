import Backend6502.Proofs.SafeSteps

/-!
# Accounts of deeds

What a step of code generation has to see done are its own deeds and those that were put off before.
An account is settled if every one of them has its block in the code that the step adds, or is put
off still. Deeds that control may miss are under a condition, or were put off when a condition came.
-/

namespace Backend6502.Lowering

open Code (Line Instruction Closed)
open Cpu (Mnemonic Mode)
open Source (Expr)
open Symbols (Table)

variable {scope : Scope} {deeds : Multiset Deed} {bill : Bill}

def Context.pending (c : Context) : Multiset Deed :=
  (c.deferred.map fun d => Deed.step d.target d.increments : List Deed)

/-- What a step of code generation has to see done. -/
@[ext] structure Bill where
  deeds : Multiset Deed
  /-- The deeds that control may miss, if it takes several ways. -/
  loose : Multiset Deed
  branches : Bool

namespace Bill

variable {b : Bill}

instance : Zero Bill where
  zero := ⟨0, 0, false⟩

instance : Add Bill where
  add a b := ⟨a.deeds + b.deeds, a.loose + b.loose, a.branches || b.branches⟩

/-- Deeds that are done where they stand. -/
def firm (deeds : Multiset Deed) : Bill :=
  ⟨deeds, 0, false⟩

/-- Deeds under a condition. -/
def loosely (deeds : Multiset Deed) : Bill :=
  ⟨deeds, deeds, true⟩

/-- The other bill has the same deeds and allows as much to be missed. -/
structure Within (a b : Bill) : Prop where
  deeds : a.deeds = b.deeds
  loose : ∀ x ∈ a.loose, x ∈ b.loose
  branches : a.branches = true → b.branches = true

theorem Within.of_deeds {deeds : Multiset Deed} (same : deeds = b.deeds) :
    Within (firm deeds) b where
  deeds := same
  loose _ inside := absurd inside (Multiset.notMem_zero _)
  branches := nofun

theorem Within.zero (none : b.deeds = 0) : Within 0 b :=
  .of_deeds none.symm

theorem Within.add_firm (b : Bill) (deeds : Multiset Deed) :
    Within (b + firm deeds) ⟨b.deeds + deeds, b.loose, b.branches⟩ where
  deeds := rfl
  loose _ inside := Multiset.add_zero b.loose ▸ inside
  branches branches := Bool.or_false b.branches ▸ branches

theorem Within.comm (a b : Bill) : Within (a + b) (b + a) where
  deeds := Multiset.add_comm _ _
  loose _ inside := Multiset.mem_add.mpr (Multiset.mem_add.mp inside).symm
  branches branches := Bool.or_eq_true_iff.mpr (Bool.or_eq_true_iff.mp branches).symm

theorem Within.left (a b : Bill) :
    Within a ⟨a.deeds, a.loose + b.loose, a.branches || b.branches⟩ where
  deeds := rfl
  loose _ inside := Multiset.mem_add.mpr (.inl inside)
  branches branches := Bool.or_eq_true_iff.mpr (.inl branches)

theorem Within.right (a b : Bill) :
    Within b ⟨b.deeds, a.loose + b.loose, a.branches || b.branches⟩ where
  deeds := rfl
  loose _ inside := Multiset.mem_add.mpr (.inr inside)
  branches branches := Bool.or_eq_true_iff.mpr (.inr branches)

/-- Two passes may miss no more than one of them. -/
theorem Within.twice {loose : Multiset Deed} {branches : Bool} (deeds more : Multiset Deed) :
    Within (⟨deeds, loose, branches⟩ + ⟨more, loose, branches⟩)
      ⟨deeds + more, loose, branches⟩ where
  deeds := rfl
  loose _ inside := (Multiset.mem_add.mp inside).elim id id
  branches either := (Bool.or_eq_true_iff.mp either).elim id id

theorem zero_add (b : Bill) : 0 + b = b := by
  ext1
  · exact Multiset.zero_add _
  · exact Multiset.zero_add _
  · rfl

theorem add_zero (b : Bill) : b + 0 = b := by
  ext1
  · exact Multiset.add_zero _
  · exact Multiset.add_zero _
  · exact Bool.or_false _

end Bill

/-- Between the contexts the bill was settled. -/
structure Settles (scope : Scope) (bill : Bill) (c d : Context) : Prop where
  high : d.high = c.high
  waits : ∀ x ∈ d.pending, x ∈ c.pending ∨ x ∈ bill.loose
  code : ∃ code sure unsure, d.code = c.code ++ code ∧ Shows scope code sure unsure ∧
    sure + unsure + d.pending = c.pending + bill.deeds ∧
      ∀ x ∈ unsure, bill.branches = true ∧ (x ∈ c.pending ∨ x ∈ bill.loose)

/-- Between the contexts the deeds were done, in code that may go to targets outside. -/
structure Tries (scope : Scope) (targets : String → Prop) (deeds : Multiset Deed) (c d : Context) :
    Prop where
  high : d.high = c.high
  code : ∃ parts, d.code = c.code ++ linesOf parts ∧ Laid scope targets parts ∧
    deedsIn parts + d.pending = c.pending + deeds

section Contexts

variable {targets : String → Prop} {c d e : Context}
variable {a b : Bill} {lines : List Line}

theorem Settles.trans (first : Settles scope a c d) (second : Settles scope b d e) :
    Settles scope (a + b) c e := by
  obtain ⟨code, sure, unsure, added, shows, balance, doubt⟩ := first.code
  obtain ⟨more, sure', unsure', added', shows', balance', doubt'⟩ := second.code
  have waits (x : Deed) (waiting : x ∈ d.pending) : x ∈ c.pending ∨ x ∈ (a + b).loose :=
    (first.waits x waiting).imp_right fun loose => Multiset.mem_add.mpr (.inl loose)
  refine ⟨second.high.trans first.high, fun x waiting => ?_, code ++ more, sure + sure',
    unsure + unsure', ?_, shows.append shows', ?_, fun x inside => ?_⟩
  · rcases second.waits x waiting with before | loose
    · exact waits x before
    · exact .inr (Multiset.mem_add.mpr (.inr loose))
  · rw [added', added, List.append_assoc]
  · calc sure + sure' + (unsure + unsure') + e.pending
        = sure + unsure + (sure' + unsure' + e.pending) := by abel
      _ = sure + unsure + d.pending + b.deeds := by rw [balance', ← add_assoc]
      _ = c.pending + (a.deeds + b.deeds) := by rw [balance, add_assoc]
  · rcases Multiset.mem_add.mp inside with before | after
    · obtain ⟨branches, known⟩ := doubt x before
      refine ⟨?_, known.imp_right fun loose => Multiset.mem_add.mpr (.inl loose)⟩
      exact Bool.or_eq_true_iff.mpr (.inl branches)
    · obtain ⟨branches, known⟩ := doubt' x after
      refine ⟨Bool.or_eq_true_iff.mpr (.inr branches), ?_⟩
      rcases known with waiting | loose
      · exact waits x waiting
      · exact .inr (Multiset.mem_add.mpr (.inr loose))

theorem Settles.within (settles : Settles scope a c d) (within : a.Within b) :
    Settles scope b c d := by
  obtain ⟨code, sure, unsure, added, shows, balance, doubt⟩ := settles.code
  refine ⟨settles.high, fun x waiting => (settles.waits x waiting).imp_right (within.loose x), code,
    sure, unsure, added, shows, ?_, fun x inside => ?_⟩
  · rw [balance, within.deeds]
  · obtain ⟨branches, known⟩ := doubt x inside
    exact ⟨within.branches branches, known.imp_right (within.loose x)⟩

theorem Tries.trans {more : Multiset Deed} (first : Tries scope targets deeds c d)
    (second : Tries scope targets more d e) : Tries scope targets (deeds + more) c e := by
  obtain ⟨parts, added, laid, balance⟩ := first.code
  obtain ⟨others, added', laid', balance'⟩ := second.code
  refine ⟨second.high.trans first.high, parts ++ others, ?_, laid.append laid' fun _ => .inr, ?_⟩
  · rw [added', added, linesOf_append, List.append_assoc]
  · rw [deedsIn_append, add_assoc, balance', ← add_assoc, balance, add_assoc]

theorem Tries.refl : Tries scope targets 0 c c :=
  ⟨rfl, [], (List.append_nil _).symm, .nil, add_comm _ _⟩

theorem Settles.tries (settles : Settles scope bill c d) :
    Tries scope targets bill.deeds c d := by
  obtain ⟨code, sure, unsure, added, shows, balance, -⟩ := settles.code
  obtain ⟨parts, rfl, same, laid⟩ := shows.exists_laid
  refine ⟨settles.high, parts, added, laid.mono fun _ => False.elim, ?_⟩
  rw [same, balance]

theorem Tries.closedBy {name : String} {u : Unit}
    (tries : Tries scope (fun label => label = name ∨ targets label) deeds c d)
    (ok : putLabel name scope d = .ok u e) : Tries scope targets deeds c e := by
  obtain ⟨parts, added, laid, balance⟩ := tries.code
  cases ok
  have label : Laid scope targets [.line (.label name)] := .single rfl fun _ goes => by cases goes
  refine ⟨tries.high, parts ++ [.line (.label name)], ?_, laid.append label ?_, ?_⟩
  · rw [linesOf_append, ← List.append_assoc, ← added]
    rfl
  · rintro label (rfl | outside)
    · exact .inl List.mem_cons_self
    · exact .inr outside
  · rw [deedsIn_append]
    exact (congrArg (· + _) (add_zero _)).trans balance

/-- Closed code in which deeds may be missed. -/
theorem Tries.settles (tries : Tries scope (fun _ => False) deeds c d) :
    Settles scope (.loosely deeds) c d := by
  obtain ⟨parts, added, laid, balance⟩ := tries.code
  have known (x : Deed) (inside : x ∈ deedsIn parts + d.pending) : x ∈ c.pending ∨ x ∈ deeds := by
    rw [balance] at inside
    exact Multiset.mem_add.mp inside
  refine ⟨tries.high, fun x waiting => known x (Multiset.mem_add.mpr (.inr waiting)), linesOf parts,
    0, deedsIn parts, added, .of_stretch laid, ?_, fun x inside => ?_⟩
  · rw [zero_add]
    exact balance
  · exact ⟨rfl, known x (Multiset.mem_add.mpr (.inl inside))⟩

theorem pending_of_deferred (same : d.deferred = c.deferred) : d.pending = c.pending := by
  rw [Context.pending, same, Context.pending]

/-- Lines that are neither a block nor steer settle nothing. -/
theorem Settles.of_quiet (high : d.high = c.high) (deferred : d.deferred = c.deferred)
    (added : d.code = c.code ++ lines) (quiet : ∀ line ∈ lines, line.isQuiet = true) :
    Settles scope 0 c d := by
  have same := pending_of_deferred deferred
  refine ⟨high, fun x waiting => .inl (same ▸ waiting), lines, 0, 0, added, .of_quiet quiet, ?_,
    nofun⟩
  rw [same]
  exact (congrArg (· + c.pending) (add_zero 0)).trans (add_comm _ _)

theorem Tries.quietly {α : Type} {m : Gen α} {a : α}
    (tries : Tries scope targets deeds c d) (hushed : Hushed m) (ok : m scope d = .ok a e) :
    Tries scope targets deeds c e := by
  obtain ⟨high, deferred, lines, added, isQuiet⟩ := hushed.adds rfl scope d a e ok
  have settled : Settles scope 0 d e := .of_quiet high deferred added isQuiet
  have all := tries.trans settled.tries
  rwa [show (0 : Bill).deeds = 0 from rfl, add_zero] at all

theorem Settles.of_block {deed : Deed} (high : d.high = c.high) (deferred : d.deferred = c.deferred)
    (added : d.code = c.code ++ lines) (block : Block scope deed lines) (closed : Closed lines) :
    Settles scope (.firm {deed}) c d := by
  have same := pending_of_deferred deferred
  refine ⟨high, fun x waiting => .inl (same ▸ waiting), lines, {deed}, 0, added,
    .of_block block closed, ?_, nofun⟩
  rw [same, add_zero]
  exact add_comm _ _

end Contexts

/-- The step settles the bill in one of the passes. -/
def Does {α : Type} (scope : Scope) (high : Bool) (bill : Bill) (m : Gen α) : Prop :=
  ∀ c a d, c.high = high → m scope c = .ok a d → Settles scope bill c d

namespace Does

variable {α β : Type} {scope : Scope} {high : Bool} {bill more : Bill}
variable {m : Gen α} {f : α → Gen β} {p : Prop}

theorem of_adds (adds : Quiet m) : Does scope high 0 m := by
  intro c a d _ ok
  obtain ⟨same, deferred, lines, added, quiet⟩ := adds scope c a d ok
  exact .of_quiet same deferred added quiet

theorem of_hushed (hushed : Hushed m) : Does scope high 0 m :=
  of_adds (hushed.adds rfl)

theorem bind (first : Does scope high bill m) (second : ∀ a, Does scope high more (f a)) :
    Does scope high (bill + more) (m >>= f) := by
  intro c b e pass ok
  obtain ⟨a, d, begins, ends⟩ := bind_inv ok
  have settled := first c a d pass begins
  exact settled.trans (second a d b e (settled.high.trans pass) ends)

theorem later (hushed : Hushed m) (second : ∀ a, Does scope high bill (f a)) :
    Does scope high bill (m >>= f) := by
  have both := bind (of_hushed hushed) second
  rwa [Bill.zero_add] at both

theorem first (does : Does scope high bill m) (hushed : ∀ a, Hushed (f a)) :
    Does scope high bill (m >>= f) := by
  have both := bind does fun a => of_hushed (hushed a)
  rwa [Bill.add_zero] at both

theorem fail (cause : Cause) : Does scope high bill (fail cause : Gen α) := by
  intro c a d _ ok
  cases ok

theorem ite_of [Decidable p] {n : Gen α} (yes : p → Does scope high bill m)
    (no : ¬p → Does scope high bill n) : Does scope high bill (if p then m else n) :=
  iteInduction yes no

theorem ite [Decidable p] {n : Gen α} (yes : Does scope high bill m) (no : Does scope high bill n) :
    Does scope high bill (if p then m else n) :=
  .ite_of (fun _ => yes) fun _ => no

theorem check [Decidable p] {cause : Cause} {rest : Unit → Gen β}
    (does : Does scope high bill (rest ())) :
    Does scope high bill (if p then Lowering.fail cause >>= rest else rest ()) :=
  .ite (.later (.fail cause) fun _ => does) does

theorem within (does : Does scope high bill m) (within : bill.Within more) :
    Does scope high more m :=
  fun c a d pass ok => (does c a d pass ok).within within

theorem inHigh {f : Bool → Gen β} (does : Does scope high bill (f high)) :
    Does scope high bill (inHigh >>= f) := by
  rintro c b d rfl ok
  exact does c b d rfl ok

theorem symbols {f : Table → Gen β} (does : Does scope high bill (f scope.symbols)) :
    Does scope high bill (symbols >>= f) :=
  fun c b d pass ok => does c b d pass ok

theorem constant {e : Expr} {f : Option Int64 → Gen β}
    (does : Does scope high bill (f (constant? scope.symbols e))) :
    Does scope high bill (constant e >>= f) :=
  fun c b d pass ok => does c b d pass ok

theorem reads {a : α} (known : ∀ c, m scope c = .ok a c) (does : Does scope high bill (f a)) :
    Does scope high bill (m >>= f) := by
  intro c b d pass ok
  obtain ⟨_, _, read, ok⟩ := bind_inv ok
  cases read.symm.trans (known c)
  exact does c b d pass ok

theorem withHigh {step : Gen α} {pass : Bool} (does : Does scope pass bill step) :
    Does scope high bill (withHigh pass step) := by
  intro c a _ _ ok
  obtain ⟨d, steps, rfl⟩ := withHigh_eq_ok ok
  have settled := does _ a d rfl steps
  exact ⟨rfl, settled.waits, settled.code⟩

end Does

/-- The step tries what the deeds depend on, and may go to the targets. -/
def Tests {α : Type} (scope : Scope) (high : Bool) (targets : String → Prop) (deeds : Multiset Deed)
    (m : Gen α) : Prop :=
  ∀ c a d, c.high = high → m scope c = .ok a d → Tries scope targets deeds c d

theorem Does.tests {α : Type} {high : Bool} {m : Gen α}
    (does : Does scope high bill m) {targets : String → Prop} :
    Tests scope high targets bill.deeds m :=
  fun c a d pass ok => (does c a d pass ok).tries

namespace Tests

variable {α β : Type} {scope : Scope} {high : Bool} {targets : String → Prop}
  {deeds more : Multiset Deed}
variable {m : Gen α} {f : α → Gen β} {p : Prop} {label : String}

theorem of_hushed (hushed : Hushed m) : Tests scope high targets 0 m :=
  (Does.of_hushed hushed).tests

theorem bind (first : Tests scope high targets deeds m)
    (second : ∀ a, Tests scope high targets more (f a)) :
    Tests scope high targets (deeds + more) (m >>= f) := by
  intro c b e pass ok
  obtain ⟨a, d, begins, ends⟩ := bind_inv ok
  have tried := first c a d pass begins
  exact tried.trans (second a d b e (tried.high.trans pass) ends)

theorem later (hushed : Hushed m) (second : ∀ a, Tests scope high targets deeds (f a)) :
    Tests scope high targets deeds (m >>= f) := by
  have both := bind (of_hushed hushed) second
  rwa [zero_add] at both

theorem first (tests : Tests scope high targets deeds m)
    (second : ∀ a, Tests scope high targets 0 (f a)) :
    Tests scope high targets deeds (m >>= f) := by
  have both := bind tests second
  rwa [add_zero] at both

theorem throw (failure : Failure) : Tests scope high targets deeds (throw failure : Gen α) := by
  intro c a d _ ok
  cases ok

theorem ite [Decidable p] {n : Gen α} (yes : Tests scope high targets deeds m)
    (no : Tests scope high targets deeds n) :
    Tests scope high targets deeds (if p then m else n) :=
  iteInduction (fun _ => yes) fun _ => no

theorem check [Decidable p] {cause : Cause} {rest : Unit → Gen β}
    (tests : Tests scope high targets deeds (rest ())) :
    Tests scope high targets deeds (if p then Lowering.fail cause >>= rest else rest ()) :=
  .ite (.later (.fail cause) fun _ => tests) tests

theorem withHigh {step : Gen α} {pass : Bool} (tests : Tests scope pass targets deeds step) :
    Tests scope high targets deeds (withHigh pass step) := by
  intro c a _ _ ok
  obtain ⟨d, steps, rfl⟩ := withHigh_eq_ok ok
  have tried := tests _ a d rfl steps
  exact ⟨rfl, tried.code⟩

theorem goesTo {m : Mnemonic} {mode : Mode} (target : targets label)
    (steers : (m == .jmp || m.isBranch) = true) :
    Tests scope high targets 0 (addFixed m mode label) := by
  intro c a d _ ok
  obtain ⟨i, found, rfl⟩ := addFixed_eq_ok ok
  obtain ⟨row, -, rfl⟩ := Option.map_eq_some_iff.mp found
  have steering : (Instruction.ofRow (.known m) label row).steers = true := steers
  refine ⟨rfl, [.line (.instruction (.ofRow (.known m) label row))], rfl, .single ?_ ?_, ?_⟩
  · exact Bool.or_eq_true_iff.mpr (.inr steering)
  · intro name goes
    have same : label = name := eq_of_beq (Bool.and_eq_true_iff.mp goes).2
    exact same ▸ target
  · exact (congrArg (· + _) (add_zero _)).trans (add_comm _ _)

theorem emitJump (target : targets label) : Tests scope high targets 0 (emitJump label) :=
  goesTo target rfl

theorem emitBranch {m : Mnemonic} (target : targets label) (branches : m.isBranch = true) :
    Tests scope high targets 0 (emitBranch m label) :=
  goesTo target (Bool.or_eq_true_iff.mpr (.inr branches))

end Tests

end Backend6502.Lowering
