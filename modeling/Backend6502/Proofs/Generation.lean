import Backend6502.Lowering.Context

/-!
# What a step of code generation ensures

`Ensures` says what holds after a step that goes through. A step may fail with an error of the
program, but not by a defect. The equations below take a step apart along its `do` block, so that a
fact about a composed step is one about its parts.
-/

namespace Backend6502.Lowering

open Code (Instruction)
open Cpu (Mnemonic Mode)

variable {α β : Type} {scope : Scope} {c : Context}
variable {accepts : Context → Bool} {Q : α → Context → Prop} {a : α} {after : Context}
  {f : α → Gen β} {p : Prop} {cause : Cause}

/-- After the step `Q` holds, unless the program has an error. A defect is never met. -/
def Ensures (m : Gen α) (scope : Scope) (c : Context) (Q : α → Context → Prop) : Prop :=
  match m scope c with
  | .ok a after => Q a after
  | .error (.error _) _ => True
  | .error (.defect _) _ => False

def goesThrough (m : Gen α) (scope : Scope) (c : Context) (accepts : Context → Bool) : Bool :=
  match m scope c with
  | .ok _ after => accepts after
  | .error _ _ => false

theorem exists_of_goesThrough {m : Gen α} (goes : goesThrough m scope c accepts = true) :
    ∃ a after, m scope c = .ok a after ∧ accepts after = true := by
  rw [goesThrough] at goes
  cases run : m scope c with
  | ok a after =>
    rw [run] at goes
    exact ⟨a, after, rfl, goes⟩
  | error failure after =>
    rw [run] at goes
    cases goes

theorem Ensures.of_ok {m : Gen α} (ensures : Ensures m scope c Q) (ok : m scope c = .ok a after) :
    Q a after := by
  rw [Ensures, ok] at ensures
  exact ensures

theorem Ensures.imp_of_ok {m : Gen α} {P : α → Context → Prop} (ensures : Ensures m scope c P)
    (implies : ∀ a after, m scope c = .ok a after → P a after → Q a after) :
    Ensures m scope c Q := by
  unfold Ensures at ensures ⊢
  cases run : m scope c with
  | ok a after =>
    rw [run] at ensures
    exact implies a after run ensures
  | error failure after =>
    rw [run] at ensures
    cases failure with
    | error e => trivial
    | defect d => exact ensures

theorem Ensures.mono {m : Gen α} {P : α → Context → Prop} (ensures : Ensures m scope c P)
    (implies : ∀ a after, P a after → Q a after) : Ensures m scope c Q :=
  ensures.imp_of_ok fun a after _ => implies a after

theorem Ensures.exists_code {m : Gen Unit} {P : List Code.Line → Prop}
    (ensures : Ensures m scope c fun _ after => ∃ code, after.code = c.code ++ code ∧ P code)
    (fresh : c.code = []) (goes : goesThrough m scope c accepts = true) :
    ∃ after, m scope c = .ok () after ∧ accepts after = true ∧ P after.code := by
  obtain ⟨_, after, ok, accepted⟩ := exists_of_goesThrough goes
  obtain ⟨code, added, holds⟩ := ensures.of_ok ok
  rw [fresh, List.nil_append] at added
  exact ⟨after, ok, accepted, added ▸ holds⟩

/-- A composed step goes through exactly if its parts do. -/
theorem bind_eq_ok {m : Gen α} {b : β} : (m >>= f) scope c = .ok b after ↔
      ∃ a between, m scope c = .ok a between ∧ f a scope between = .ok b after := by
  have unfolds : (m >>= f) scope c = EStateM.bind (m scope) (fun a => f a scope) c := rfl
  rw [unfolds, EStateM.bind]
  cases m scope c with
  | ok a between =>
    constructor
    · exact fun ends => ⟨a, between, rfl, ends⟩
    · rintro ⟨_, _, ⟨⟩, ends⟩
      exact ends
  | error failure between => simp

theorem bind_inv {m : Gen α} {b : β} (ok : (m >>= f) scope c = .ok b after) :
    ∃ a between, m scope c = .ok a between ∧ f a scope between = .ok b after :=
  bind_eq_ok.mp ok

theorem check_eq_ok [Decidable p] {rest : Unit → Gen α}
    (ok : (if p then fail cause >>= rest else rest ()) scope c = .ok a after) :
    rest () scope c = .ok a after := by
  split at ok
  · obtain ⟨_, _, fails, -⟩ := bind_inv ok
    cases fails
  · exact ok

theorem withHigh_eq_ok {high : Bool} {m : Gen α} (ok : withHigh high m scope c = .ok a after) :
    ∃ e, m scope { c with high } = .ok a e ∧ after = { e with high := c.high } := by
  obtain ⟨before, _, ⟨⟩, ok⟩ := bind_inv ok
  obtain ⟨_, _, ⟨⟩, ok⟩ := bind_inv ok
  obtain ⟨b, e, step, ok⟩ := bind_inv ok
  cases ok
  exact ⟨e, step, rfl⟩

@[simp] theorem ensures_bind {m : Gen α} {Q : β → Context → Prop} : Ensures (m >>= f) scope c Q ↔
      Ensures m scope c fun a after => Ensures (f a) scope after Q := by
  have unfolds : (m >>= f) scope c = EStateM.bind (m scope) (fun a => f a scope) c := rfl
  unfold Ensures
  rw [unfolds, EStateM.bind]
  cases m scope c with
  | ok a after => rfl
  | error failure after => cases failure <;> rfl

@[simp] theorem ensures_pure : Ensures (pure a) scope c Q ↔ Q a c := Iff.rfl

@[simp] theorem ensures_get {Q : Context → Context → Prop} :
    Ensures get scope c Q ↔ Q c c := Iff.rfl

@[simp] theorem ensures_read {Q : Scope → Context → Prop} :
    Ensures read scope c Q ↔ Q scope c := Iff.rfl

@[simp] theorem ensures_modify {f : Context → Context} {Q : Unit → Context → Prop} :
    Ensures (modify f) scope c Q ↔ Q () (f c) := Iff.rfl

@[simp] theorem ensures_fail : Ensures (fail cause) scope c Q := trivial

theorem ensures_ite [Decidable p] {m n : Gen α} : Ensures (if p then m else n) scope c Q ↔
      (p → Ensures m scope c Q) ∧ (¬p → Ensures n scope c Q) := by
  split <;> simp_all

section Emitting

variable {d : Context} {u : Unit} {m : Mnemonic}

theorem addFixed_eq_ok {mode : Mode} {operand : String}
    (ok : addFixed m mode operand scope c = .ok u d) :
    ∃ i, Instruction.find? (.known m) mode operand = some i ∧
      d = { c with code := c.code ++ [.instruction i] } := by
  unfold addFixed addTimes at ok
  cases found : Instruction.find? (.known m) mode operand with
  | none =>
    rw [found] at ok
    cases ok
  | some i =>
    rw [found] at ok
    cases ok
    exact ⟨i, rfl, rfl⟩

/-- An instruction for a place is added in the mode that the place asks for. -/
theorem emit_eq_ok {place : Place} (ok : emit m place scope c = .ok u d) :
    ∃ mode operand i, place.operand? scope.symbols c.high = some (mode, operand) ∧
      Instruction.find? (.known m) mode operand = some i ∧
      d = { c with
        code := c.code ++ [.instruction i]
        scratchInUse := c.scratchInUse && !(place.isScratch && !isStore m)
        flags := c.flags.after m place } := by
  obtain ⟨_, _, ⟨⟩, ok⟩ := bind_inv ok
  obtain ⟨_, _, ⟨⟩, ok⟩ := bind_inv ok
  cases addressed : place.operand? scope.symbols c.high with
  | none =>
    rw [addressed] at ok
    cases ok
  | some reached =>
    obtain ⟨mode, operand⟩ := reached
    rw [addressed] at ok
    dsimp only at ok
    cases found : Instruction.find? (.known m) mode operand with
    | none =>
      rw [found] at ok
      cases ok
    | some i =>
      rw [found] at ok
      refine ⟨mode, operand, i, rfl, found, ?_⟩
      obtain ⟨_, added, ⟨⟩, ok⟩ := bind_inv ok
      split at ok
      · next frees =>
        cases ok
        rw [frees, Bool.not_true, Bool.and_false]
      · next keeps =>
        cases ok
        rw [eq_false_of_ne_true keeps, Bool.not_false, Bool.and_true]

theorem memoryMode_eq (table : Symbols.Table) (name : String) (short long : Mode) :
    memoryMode table name short long = short ∨ memoryMode table name short long = long := by
  unfold memoryMode
  split
  · split
    · exact .inl rfl
    · exact .inr rfl
  · exact .inr rfl

/-- Places are not addressed like targets of branches, and only the accumulator is like itself. -/
theorem mode_of_operand? {table : Symbols.Table} {high : Bool} {place : Place} {mode : Mode}
    {operand : String} (found : place.operand? table high = some (mode, operand)) :
    mode ≠ .relative ∧ (place.isAccumulator = false → mode ≠ .accumulator) := by
  have memory (name : String) {short long : Mode} (zero : short ≠ .relative ∧ short ≠ .accumulator)
      (other : long ≠ .relative ∧ long ≠ .accumulator) :
      memoryMode table name short long ≠ .relative ∧
        (false = false → memoryMode table name short long ≠ .accumulator) := by
    rcases memoryMode_eq table name short long with same | same
    · rw [same]
      exact ⟨zero.1, fun _ => zero.2⟩
    · rw [same]
      exact ⟨other.1, fun _ => other.2⟩
  cases place with
  | x | y => cases found
  | cell name | indexedX name =>
    cases found
    exact memory name (by decide) (by decide)
  | indexedY name =>
    rw [Place.operand?] at found
    split at found
    · cases found
      exact ⟨by decide, fun _ => by decide⟩
    · cases found
      exact memory name (by decide) (by decide)
  | accumulator =>
    cases found
    exact ⟨by decide, nofun⟩
  | _ =>
    cases found
    exact ⟨by decide, fun _ => by decide⟩

end Emitting

/-- Whatever the step yields has the property. -/
def Yields (P : α → Prop) (m : Gen α) : Prop :=
  ∀ scope c a after, m scope c = .ok a after → P a

namespace Yields

variable {P : α → Prop}

theorem pure {a : α} (holds : P a) : Yields P (pure a) := by
  intro scope c b after ok
  cases ok
  exact holds

theorem fail (cause : Cause) : Yields P (fail cause : Gen α) := by
  intro scope c a after ok
  cases ok

theorem bind {m : Gen β} {f : β → Gen α} (second : ∀ b, Yields P (f b)) :
    Yields P (m >>= f) := by
  intro scope c a after ok
  obtain ⟨b, between, -, ends⟩ := bind_inv ok
  exact second b scope between a after ends

theorem bind_of {R : β → Prop} {m : Gen β} {f : β → Gen α} (first : Yields R m)
    (second : ∀ b, R b → Yields P (f b)) : Yields P (m >>= f) := by
  intro scope c a after ok
  obtain ⟨b, between, begins, ends⟩ := bind_inv ok
  exact second b (first scope c b between begins) scope between a after ends

theorem ite_of {p : Prop} [Decidable p] {m n : Gen α} (yes : p → Yields P m)
    (no : ¬p → Yields P n) : Yields P (if p then m else n) :=
  iteInduction yes no

theorem ite {p : Prop} [Decidable p] {m n : Gen α} (yes : Yields P m) (no : Yields P n) :
    Yields P (if p then m else n) :=
  .ite_of (fun _ => yes) fun _ => no

end Yields

end Backend6502.Lowering
