import Backend6502.Proofs.ByteValues
import Backend6502.Proofs.SafeSteps

/-!
# Code that branches

Code is laid out line by line, and a context stands for the place in it that code generation had
come to. A run goes from the place of one context to the place of another, or comes to a line that
jumps to a label; where the label was placed, the jump goes on behind it.
-/

namespace Backend6502.Lowering

open Code (Line Instruction Surroundings Steps Point fromLabel? labelNames)
open Cpu (State Mnemonic)

variable {w : Surroundings} {c d e : Context} {name : String} {scope : Scope} {s : State}

/-- Code as it is laid out, of which the lines from some number on are run. -/
structure Listing where
  code : List Line
  start : Nat

namespace Listing

variable {L : Listing} {c d : Context}

def lines (L : Listing) : List Line :=
  L.code.drop L.start

def ahead (L : Listing) (c : Context) : List Line :=
  L.code.drop c.code.length

def Holds (L : Listing) (c : Context) : Prop :=
  c.code <+: L.code

/-- The context is where lines are run, and behind it no label comes twice. -/
structure Fresh (L : Listing) (c : Context) : Prop where
  begun : L.start ≤ c.code.length
  distinct : (labelNames (L.ahead c)).Nodup

theorem ahead_append {added : List Line} (laid : L.Holds d) (code : d.code = c.code ++ added) :
    L.ahead c = added ++ L.ahead d := by
  obtain ⟨rest, whole⟩ := laid
  rw [ahead, ahead, ← whole, List.drop_left, code, List.append_assoc, List.drop_left]

/-- The lines ahead of a later context are the last of those ahead of an earlier one. -/
theorem Fresh.grows (fresh : L.Fresh c) (grows : c.code <+: d.code) : L.Fresh d := by
  have longer := grows.length_le
  refine ⟨Nat.le_trans fresh.begun longer, fresh.distinct.sublist (List.Sublist.filterMap _ ?_)⟩
  obtain ⟨more, same⟩ := Nat.exists_eq_add_of_le longer
  rw [ahead, ahead, same, ← List.drop_drop]
  exact List.drop_sublist _ _

theorem fresh_nil (c : Context) : (Listing.mk [] 0).Fresh c := by
  refine ⟨Nat.zero_le _, ?_⟩
  rw [ahead, List.drop_nil]
  exact List.nodup_nil

theorem Fresh.of_eq (fresh : L.Fresh c) (code : d.code = c.code) : L.Fresh d :=
  fresh.grows (code ▸ List.prefix_refl _)

/-- A label of some code is found there, since it comes nowhere else behind it. -/
theorem fromLabel?_within {label : String} {code found : List Line} (laid : L.Holds d)
    (fresh : L.Fresh c) (added : d.code = c.code ++ code)
    (own : fromLabel? label code = some found) :
    fromLabel? label L.lines = some (found ++ L.ahead d) := by
  have here : L.ahead c = code ++ L.ahead d := ahead_append laid added
  have inside : label ∈ labelNames code := by
    by_contra outside
    cases own.symm.trans (Code.fromLabel?_eq_none.mpr outside)
  have last : fromLabel? label (L.ahead d) = none := by
    refine Code.fromLabel?_eq_none.mpr fun again => ?_
    have distinct := fresh.distinct
    rw [here, Code.labelNames_append] at distinct
    exact List.disjoint_of_nodup_append distinct inside again
  have both : fromLabel? label (L.ahead c) = some (found ++ L.ahead d) := by
    rw [here, Code.fromLabel?_append, last, own]
    rfl
  obtain ⟨more, same⟩ := Nat.exists_eq_add_of_le fresh.begun
  have split : L.lines = L.lines.take more ++ L.ahead c := by
    rw [ahead, same, ← List.drop_drop]
    exact (List.take_append_drop more L.lines).symm
  rw [split, Code.fromLabel?_append, both]

end Listing

/-- Runs from one place go to another, and what holds of the state changes from one to the other. -/
def Reaches (w : Surroundings) (L : Listing) (c d : Context) (P Q : State → Prop) : Prop :=
  ∀ s, P s → ∃ t, Steps w L.lines ⟨L.ahead c, s⟩ ⟨L.ahead d, t⟩ ∧ Q t

/-- Runs from a place come to a line that jumps to a label. -/
def Escapes (w : Surroundings) (L : Listing) (c : Context) (label : String) (P Q : State → Prop) :
    Prop :=
  ∀ s, P s → ∃ line rest t, Steps w L.lines ⟨L.ahead c, s⟩ ⟨line :: rest, t⟩ ∧
    line.flow w t = .jump label ∧ Q t

variable {L : Listing}

section Moves

variable {P Q R : State → Prop}

theorem Reaches.refl (c : Context) (P : State → Prop) : Reaches w L c c P P :=
  fun s holds => ⟨s, .refl _, holds⟩

theorem Reaches.trans (first : Reaches w L c d P Q) (second : Reaches w L d e Q R) :
    Reaches w L c e P R := by
  intro s holds
  obtain ⟨t, steps, between⟩ := first s holds
  obtain ⟨u, others, ends⟩ := second t between
  exact ⟨u, steps.trans others, ends⟩

theorem Reaches.escapes (first : Reaches w L c d P Q) (second : Escapes w L d name Q R) :
    Escapes w L c name P R := by
  intro s holds
  obtain ⟨t, steps, between⟩ := first s holds
  obtain ⟨line, rest, u, others, jumps, ends⟩ := second t between
  exact ⟨line, rest, u, steps.trans others, jumps, ends⟩

/-- Straight code goes on, and does what it does. -/
theorem Emits.steps {α : Type} {m : Gen α} {a : α}
    {Q : Report α} (emits : Emits w scope c m Q)
    (ok : m scope c = .ok a d) :
    ∃ g, Q a d g ∧ (∃ code : List Instruction, d.code = c.code ++ code.map .instruction) ∧
      (L.Holds d → ∀ s, Steps w L.lines ⟨L.ahead c, s⟩ ⟨L.ahead d, g s⟩) := by
  obtain ⟨code, added, straight, holds⟩ := emits a d ok
  refine ⟨_, holds, ⟨code, added⟩, fun laid s => ?_⟩
  rw [Listing.ahead_append laid added]
  exact .straight straight _ s

end Moves

/-- What the code of a condition or of a statement leaves as it is. -/
structure Calm (c d : Context) : Prop where
  high : d.high = c.high
  acc : d.accInUse = c.accInUse
  exits : d.exits = c.exits
  deferred : d.deferred = c.deferred

/--
The code between two contexts: it places its own labels and new ones, and nothing stays in use.
-/
structure Lays (own : List String) (c d : Context) : Prop extends Labelled own c d, Calm c d

def Context.labelled (c : Context) (name : String) : Context :=
  { c with code := c.code ++ [.label name], flags := .unknown }

def Context.steered (c : Context) (i : Instruction) : Context :=
  { c with code := c.code ++ [.instruction i] }

/-- No label comes twice in the code. -/
theorem Labelled.fresh (labelled : Labelled [] c d) {start : Nat} (begun : start ≤ c.code.length) :
    (Listing.mk d.code start).Fresh c := by
  obtain ⟨lines, whole⟩ := labelled.grows
  refine ⟨begun, ?_⟩
  rw [Listing.ahead, ← whole, List.drop_left]
  exact labelled.nodup whole.symm

namespace Lays

variable {own others : List String} {c d e : Context}

theorem trans (first : Lays own c d) (second : Lays others d e) : Lays (own ++ others) c e :=
  ⟨first.toLabelled.trans second.toLabelled, second.high.trans first.high,
    second.acc.trans first.acc, second.exits.trans first.exits,
    second.deferred.trans first.deferred⟩

/-- The lines that start with all of the code start with the first part of it. -/
theorem holds {L : Listing} (lays : Lays own c d) (laid : L.Holds d) : L.Holds c :=
  lays.grows.trans laid

theorem nothing (c : Context) : Lays [] c c :=
  ⟨.plain (List.append_nil _).symm rfl (.of_eq rfl rfl rfl), rfl, rfl, rfl, rfl⟩

theorem straight {code : List Instruction} (added : d.code = c.code ++ code.map .instruction)
    (kept : Kept c d) (acc : d.accInUse = c.accInUse) : Lays [] c d :=
  ⟨.plain added (Code.labelNames_map_instruction code)
    (.of_eq kept.forCount kept.ifCount kept.whileCount), kept.high, acc, kept.exits, kept.deferred⟩

theorem steered (c : Context) (i : Instruction) : Lays [] c (c.steered i) :=
  ⟨.plain rfl rfl (.of_eq rfl rfl rfl), rfl, rfl, rfl, rfl⟩

theorem label (c : Context) (name : String) : Lays [name] c (c.labelled name) :=
  ⟨.label rfl (.of_eq rfl rfl rfl), rfl, rfl, rfl, rfl⟩

section

variable (labels : List Label) (distinct : labels.Nodup)

include labels distinct

theorem openedIf (within : ∀ l ∈ labels, l.Within c c.countIf)
    (rest : Lays (labels.map Label.text) c.countIf e) : Lays [] c e :=
  ⟨.opened distinct within rfl ⟨Nat.le_refl _, Nat.le_succ _, Nat.le_refl _⟩ rest.toLabelled,
    rest.high, rest.acc, rest.exits, rest.deferred⟩

theorem openedFor (within : ∀ l ∈ labels, l.Within c c.countFor)
    (rest : Lays (labels.map Label.text) c.countFor e) : Lays [] c e :=
  ⟨.opened distinct within rfl ⟨Nat.le_succ _, Nat.le_refl _, Nat.le_refl _⟩ rest.toLabelled,
    rest.high, rest.acc, rest.exits, rest.deferred⟩

theorem openedWhile (within : ∀ l ∈ labels, l.Within c c.countWhile)
    (rest : Lays (labels.map Label.text) c.countWhile e) : Lays [] c e :=
  ⟨.opened distinct within rfl ⟨Nat.le_refl _, Nat.le_refl _, Nat.le_succ _⟩ rest.toLabelled,
    rest.high, rest.acc, rest.exits, rest.deferred⟩

end

end Lays

section Steering

variable {P Q : State → Prop} {m : Mnemonic} {u : Unit}

theorem putLabel_eq_ok (ok : putLabel name scope c = .ok u d) : d = c.labelled name := by
  cases ok
  rfl

theorem emitJump_eq_ok (ok : emitJump name scope c = .ok u d) : d = c.steered (.jump name) := by
  cases ok
  rfl

theorem emitBranch_eq_ok (branches : m.isBranch = true)
    (ok : emitBranch m name scope c = .ok u d) : d = c.steered (.branch m name) := by
  unfold emitBranch addFixed addTimes at ok
  rw [Instruction.find?_branch m name branches] at ok
  cases ok
  rfl

theorem Reaches.pastLabel (laid : L.Holds (c.labelled name)) (P : State → Prop) :
    Reaches w L c (c.labelled name) P P := by
  intro s holds
  refine ⟨s, ?_, holds⟩
  rw [Listing.ahead_append laid rfl]
  exact .single (Point.step?_of_next rfl)

/-- A jump to a label goes on behind it. -/
theorem Escapes.lands (escapes : Escapes w L e name P Q) (fresh : L.Fresh c)
    (laid : L.Holds (c.labelled name)) : Reaches w L e (c.labelled name) P Q := by
  intro s holds
  obtain ⟨line, rest, t, steps, jumps, ends⟩ := escapes s holds
  have found := Listing.fromLabel?_within laid fresh rfl
    (Code.fromLabel?_of_last name [] [] List.not_mem_nil)
  exact ⟨t, (steps.trans (.single (Point.step?_of_jump jumps found))).trans
    (.single (Point.step?_of_next rfl)), ends⟩

theorem Escapes.byJump (laid : L.Holds (c.steered (.jump name))) (P : State → Prop) :
    Escapes w L c name P P := by
  intro s holds
  refine ⟨.instruction (.jump name), L.ahead (c.steered (.jump name)), s, ?_, rfl, holds⟩
  rw [Listing.ahead_append laid rfl]
  exact .refl _

section

variable (branches : m.isBranch = true) (laid : L.Holds (c.steered (.branch m name)))

include branches laid

theorem escapes_taken (takes : s.takes m = true) :
    ∃ line rest, Steps w L.lines ⟨L.ahead c, s⟩ ⟨line :: rest, s⟩ ∧ line.flow w s = .jump name := by
  refine ⟨.instruction (.branch m name), L.ahead (c.steered (.branch m name)), ?_,
    Line.flow_taken rfl branches takes⟩
  rw [Listing.ahead_append laid rfl]
  exact .refl _

/-- A branch goes on if it is not taken. -/
theorem steps_passed (passes : s.takes m = false) :
    Steps w L.lines ⟨L.ahead c, s⟩ ⟨L.ahead (c.steered (.branch m name)), s⟩ := by
  rw [Listing.ahead_append laid rfl]
  exact .single (Point.step?_of_next (Line.flow_passed rfl branches passes))

end

end Steering

/-- Code that is seen to come to its end within some steps has a run to its end. -/
theorem exists_run_of_goesThrough {α : Type} {m : Gen α} {w : Surroundings} {scope : Scope}
    {c : Context} {s : State} {accepts : State → Bool} (n : Nat)
    (goes : goesThrough m scope c (fun d =>
      let last := Point.after w d.code n ⟨d.code, s⟩
      last.rest.isEmpty && accepts last.cpu) = true) :
    ∃ a d t, m scope c = .ok a d ∧ Steps w d.code ⟨d.code, s⟩ ⟨[], t⟩ ∧ accepts t = true := by
  obtain ⟨a, d, ran, accepted⟩ := exists_of_goesThrough goes
  obtain ⟨past, holds⟩ := Bool.and_eq_true_iff.mp accepted
  have steps : Steps w d.code ⟨d.code, s⟩ _ := .after n _
  refine ⟨a, d, _, ran, ?_, holds⟩
  rw [← List.isEmpty_iff.mp past]
  exact steps

end Backend6502.Lowering
