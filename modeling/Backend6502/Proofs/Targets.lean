import Backend6502.Proofs.Reductions

/-!
# Branch targets

A stream whose conditional branches all go to labels of its own keeps this property when it is
optimized and repaired, and its repair goes through. Repairs are made round by round (`Rounds`), so
what one of them keeps is kept by all.
-/

namespace Backend6502.Code

variable {lines old : List Line} {i : Instruction}
variable {name : String} {before after new : List Line} {up : Int64}

/-- An element of two lists one after the other stands in the second of them or in the first. -/
theorem cut_append {α : Type} {lines rest upper below : List α} {line : α}
    (cut : lines ++ rest = upper ++ line :: below) :
    (∃ inner, upper = lines ++ inner ∧ rest = inner ++ line :: below) ∨
      ∃ inner, lines = upper ++ line :: inner ∧ below = inner ++ rest := by
  rcases List.append_eq_append_iff.mp cut with ⟨inner, above, further⟩ | ⟨inner, above, further⟩
  · exact .inl ⟨inner, above, further⟩
  · cases inner with
    | nil => exact .inl ⟨[], by simpa using above.symm, further.symm⟩
    | cons first inner =>
      obtain ⟨rfl, rfl⟩ := List.cons.inj further
      exact .inr ⟨inner, above, rfl⟩

theorem mem_labelNames : name ∈ labelNames lines ↔ .label name ∈ lines := by
  constructor
  · intro inside
    obtain ⟨line, line_mem, carries⟩ := List.mem_filterMap.mp inside
    cases line <;> cases carries
    exact line_mem
  · intro inside
    exact List.mem_filterMap.mpr ⟨_, inside, rfl⟩

theorem labelNames_replicate (count : Nat) (i : Instruction) :
    labelNames (List.replicate count (.instruction i)) = [] := by
  induction count with
  | zero => rfl
  | succ count ih => exact ih

theorem Instruction.steers_of_isConditional (conditional : i.isConditional = true) :
    i.steers = true := by
  obtain ⟨m, entry, branches⟩ := (Option.any_eq_true _ _).mp conditional
  exact (Option.any_eq_true _ _).mpr ⟨m, entry, by simp [branches]⟩

/-- Every branch and jump goes to one of the labels of the lines or to a target. -/
def Aimed (targets : String → Prop) (lines : List Line) : Prop :=
  ∀ i, .instruction i ∈ lines → i.steers = true →
    targets i.operand ∨ i.operand ∈ labelNames lines

namespace Aimed

variable {targets : String → Prop}

theorem nil : Aimed targets [] := by
  intro i inside
  cases inside

theorem append {first second : List Line} (high : Aimed targets first)
    (low : Aimed targets second) : Aimed targets (first ++ second) := by
  intro i inside steers
  rw [labelNames_append, List.mem_append]
  rcases List.mem_append.mp inside with up | down
  · exact (high i up steers).imp_right .inl
  · exact (low i down steers).imp_right .inr

theorem enclose {own : String → Prop} {lines : List Line}
    (aimed : Aimed (fun label => own label ∨ targets label) lines)
    (placed : ∀ label, own label → label ∈ labelNames lines) : Aimed targets lines := by
  intro i inside steers
  rcases aimed i inside steers with (mine | target) | here
  · exact .inr (placed _ mine)
  · exact .inl target
  · exact .inr here

theorem of_plain {i : Instruction} {m : Cpu.Mnemonic} (op : i.op = .known m)
    (plain : (m == .jmp || m.isBranch) = false) (count : Nat) :
    Aimed targets (List.replicate count (.instruction i)) := by
  intro j inside steers
  cases (List.mem_replicate.mp inside).2
  rw [Instruction.steers, op] at steers
  change (m == .jmp || m.isBranch) = true at steers
  rw [plain] at steers
  cases steers

end Aimed

/-- Every conditional branch goes to one of the labels of the lines. -/
def Targeted (lines : List Line) : Prop :=
  ∀ i, .instruction i ∈ lines → i.isConditional = true → i.operand ∈ labelNames lines

theorem Aimed.targeted (aimed : Aimed (fun _ => False) lines) : Targeted lines :=
  fun i inside conditional =>
    (aimed i inside (Instruction.steers_of_isConditional conditional)).resolve_left id

theorem labelNames_cons_of_not_isLabel {line : Line} (other : line.isLabel name = false) :
    name ∈ labelNames (line :: lines) ↔ name ∈ labelNames lines := by
  cases line with
  | label text =>
    have differs : name ≠ text := by
      rintro rfl
      simp [Line.isLabel] at other
    simp [differs]
  | _ => rfl

theorem seekUp_isSome (inside : name ∈ labelNames before) :
    (seekUp name up before).isSome = true := by
  induction before generalizing up with
  | nil => cases inside
  | cons line before ih =>
    rw [seekUp]
    cases here : line.isLabel name with
    | true => rfl
    | false => exact ih ((labelNames_cons_of_not_isLabel here).mp inside)

/-- The distance to a label of the lines around can be measured. -/
theorem seek_isSome {down : Int64} (inside : name ∈ labelNames after ∨ name ∈ labelNames before) :
    (seek name down up after before).isSome = true := by
  induction after generalizing down up before with
  | nil =>
    rw [seek]
    exact seekUp_isSome (inside.resolve_left (by simp))
  | cons line after ih =>
    unfold seek
    cases here : line.isLabel name with
    | true => rfl
    | false =>
      rw [labelNames_cons_of_not_isLabel here] at inside
      cases before with
      | nil => exact ih inside
      | cons above before =>
        cases there : above.isLabel name with
        | true =>
          simp only [there]
          rfl
        | false =>
          rw [labelNames_cons_of_not_isLabel there] at inside
          simp only [there]
          exact ih inside

/-- A branch that has a label to go to, but cannot reach it. -/
def Spot.Far (spot : Spot) : Prop :=
  ∃ distance, spot.distance? = some distance ∧ inRange distance = false

/--
What the search for a branch out of reach comes to: all branches reach their labels, or it finds one
that does not, or one that has no label.
-/
inductive Searched (before after : List Line) : Except Defect (Option Spot) → Prop where
  | near (all : ∀ upper i below, after = upper ++ .instruction i :: below → i.op.isBranch = true →
      ∃ distance, Spot.distance? ⟨upper.reverse ++ before, i, below⟩ = some distance ∧
        inRange distance = true) : Searched before after (.ok none)
  | far {spot : Spot} (shape : spot.lines = before.reverse ++ after)
      (branches : spot.instruction.op.isBranch = true) (far : spot.Far) :
      Searched before after (.ok (some spot))
  | lost (upper : List Line) {defect : Defect} {below : List Line} {i : Instruction}
      (cut : after = upper ++ .instruction i :: below) (branches : i.op.isBranch = true)
      (nowhere : Spot.distance? ⟨upper.reverse ++ before, i, below⟩ = none) :
      Searched before after (.error defect)

theorem searched_firstFar? (name : String) (before after : List Line) :
    Searched before after (firstFar? name before after) := by
  induction after generalizing before with
  | nil => exact .near fun upper _ _ cut => by simp at cut
  | cons line after ih =>
    have further (reached : ∀ i, line = .instruction i → i.op.isBranch = true →
        ∃ distance, Spot.distance? ⟨before, i, after⟩ = some distance ∧ inRange distance = true) :
        Searched before (line :: after) (firstFar? name (line :: before) after) := by
      have others := ih (line :: before)
      generalize firstFar? name (line :: before) after = found at others
      cases others with
      | near all =>
        refine .near fun upper i below cut branches => ?_
        cases upper with
        | nil =>
          obtain ⟨isFirst, rfl⟩ := List.cons.inj cut
          exact reached i isFirst branches
        | cons first upper =>
          obtain ⟨rfl, rest⟩ := List.cons.inj cut
          simpa using all upper i below rest branches
      | far shape branches far => exact .far (by simpa using shape) branches far
      | lost upper cut branches nowhere =>
        exact .lost (line :: upper) (by rw [cut]; rfl) branches (by simpa using nowhere)
    cases line with
    | instruction i =>
      rw [firstFar?]
      split
      · next branches =>
        split
        · next nowhere => exact .lost [] rfl branches nowhere
        · next distance measured =>
          split
          · next reach =>
            refine further ?_
            rintro _ ⟨⟩ -
            exact ⟨distance, measured, reach⟩
          · next out => exact .far rfl branches ⟨distance, measured, eq_false_of_ne_true out⟩
      · next other =>
        refine further ?_
        rintro _ ⟨⟩ branches
        exact absurd branches other
    | _ => exact further fun i same => by cases same

/-- What the search finds is a branch out of reach. -/
theorem far_of_firstFar? {spot : Spot} (found : firstFar? name before after = .ok (some spot)) :
    spot.lines = before.reverse ++ after ∧ spot.instruction.op.isBranch = true ∧ spot.Far := by
  have searched := searched_firstFar? name before after
  rw [found] at searched
  cases searched with
  | far shape branches far => exact ⟨shape, branches, far⟩

/-- If the search finds none, all branches reach their labels. -/
theorem inRange_of_firstFar?_none {upper below : List Line}
    (found : firstFar? name [] (upper ++ .instruction i :: below) = .ok none)
    (branches : i.op.isBranch = true) :
    ∃ distance, Spot.distance? ⟨upper.reverse, i, below⟩ = some distance ∧
      inRange distance = true := by
  have searched := searched_firstFar? name [] (upper ++ .instruction i :: below)
  rw [found] at searched
  cases searched with
  | near all => simpa using all upper i below rfl branches

namespace Site

variable {site : Site} {landing old : List Line}

theorem Made.labelNames_eq_nil
    (made : site.Made landing old) : labelNames old = [] := by
  cases made with
  | single => rfl
  | atMost less equal gap decision lessOp lessTarget quiet =>
    simp [labelNames_of_silent quiet]
  | above equal notLess gap below rest decision equalOp quiet =>
    simp [labelNames_of_silent quiet]

/-- What a repair branches to is a label of its own. It jumps to its target. -/
theorem operand_cases {number : Nat} {i : Instruction}
    (inside : .instruction i ∈ site.lines number) :
    i = .jump site.target ∨ i.operand ∈ labelNames (site.lines number) := by
  unfold lines at inside ⊢
  cases decision : site.decision <;>
    simp only [decision, guarded, List.mem_cons, Line.instruction.injEq, reduceCtorEq,
      List.not_mem_nil, or_false, false_or] at inside ⊢
  · rcases inside with rfl | rfl
    · simp [Instruction.branch]
    · exact .inl rfl
  · rcases inside with rfl | rfl | rfl
    · simp [Instruction.branch]
    · simp [Instruction.branch]
    · exact .inl rfl
  · rcases inside with rfl | rfl | rfl
    · simp [Instruction.branch]
    · simp [Instruction.branch]
    · exact .inl rfl

/-- A repair takes no label away. -/
theorem Made.labelNames_subset
    (made : site.Made landing old) (number : Nat) :
    labelNames (site.before.reverse ++ (old ++ site.after)) ⊆
      labelNames (site.before.reverse ++ (site.lines number ++ site.after)) := by
  intro label found
  simp only [labelNames_append, made.labelNames_eq_nil, List.nil_append, List.mem_append]
    at found ⊢
  exact found.imp_right .inr

end Site

section Repaired

variable {site : Site} {landing : List Line}

/-- A repair keeps every label, and what it brings in besides its jump goes to labels of its own. -/
theorem Site.Made.targets_repaired (made : site.Made landing old) (number : Nat)
    {p : Instruction → Prop} (other : ¬p (.jump site.target))
    (targets : ∀ i, .instruction i ∈ site.before.reverse ++ (old ++ site.after) → p i →
      i.operand ∈ labelNames (site.before.reverse ++ (old ++ site.after)))
    (inside : .instruction i ∈ site.before.reverse ++ (site.lines number ++ site.after))
    (holds : p i) :
    i.operand ∈ labelNames (site.before.reverse ++ (site.lines number ++ site.after)) := by
  have outside := made.labelNames_subset number
  simp only [List.mem_append] at inside
  rcases inside with up | inside | down
  · exact outside (targets i (by simp_all) holds)
  · rw [labelNames_append, labelNames_append]
    refine List.mem_append_right _ (List.mem_append_left _ ?_)
    rcases Site.operand_cases inside with rfl | own
    · exact absurd holds other
    · exact own
  · exact outside (targets i (by simp_all) holds)

theorem Targeted.repaired (targeted : Targeted (site.before.reverse ++ (old ++ site.after)))
    (made : site.Made landing old) (number : Nat) :
    Targeted (site.before.reverse ++ (site.lines number ++ site.after)) :=
  fun _ inside conditional => made.targets_repaired number nofun targeted inside conditional

/-- Every branch that repairs are made for goes to one of the labels of the lines. -/
def Served (lines : List Line) : Prop :=
  ∀ i, .instruction i ∈ lines → i.op.isBranch = true → i.operand ∈ labelNames lines

theorem Targeted.served (targeted : Targeted lines) : Served lines := by
  intro i inside branches
  refine targeted i inside ?_
  unfold Operation.isBranch at branches
  split at branches
  · next op =>
    rw [Instruction.isConditional, op]
    exact branches
  · cases branches

namespace Served

theorem repaired (served : Served (site.before.reverse ++ (old ++ site.after)))
    (made : site.Made landing old) (number : Nat) :
    Served (site.before.reverse ++ (site.lines number ++ site.after)) :=
  fun _ inside branches => made.targets_repaired number nofun served inside branches

/-- The search finds every target that it needs. -/
theorem firstFar?_ne_error {name : String} {lines : List Line} (served : Served lines)
    {defect : Defect} : firstFar? name [] lines ≠ .error defect := by
  intro fails
  have searched := searched_firstFar? name [] lines
  rw [fails] at searched
  cases searched with
  | @lost upper _ below i cut branches nowhere =>
    have target := served i (by rw [cut]; simp) branches
    have measured : (Spot.distance? ⟨upper.reverse ++ [], i, below⟩).isSome = true := by
      refine seek_isSome ?_
      simpa [cut, mem_labelNames, or_comm] using target
    rw [nowhere] at measured
    cases measured

end Served

end Repaired

namespace Stream

variable {s : Stream} {P : Stream → Prop}

theorem lines_repairSite (s : Stream) (site : Site) : (s.repairSite site).lines =
    site.before.reverse ++ (site.lines (s.fixes + 1) ++ site.after) :=
  List.append_assoc ..

/-- So many repairs, each of the first branch out of reach. -/
inductive Rounds : Nat → Stream → Stream → Prop where
  | none (s : Stream) : Rounds 0 s s
  | next {n : Nat} {s t : Stream} {spot : Spot} {site : Site}
      (far : firstFar? s.name [] s.lines = .ok (some spot))
      (decided : Site.ofBranch? spot = some site) (others : Rounds n (s.repairSite site) t) :
      Rounds (n + 1) s t

theorem exists_made_of_far {spot : Spot} {site : Site}
    (far : firstFar? s.name [] s.lines = .ok (some spot))
    (decided : Site.ofBranch? spot = some site) :
    ∃ old landing, site.Made landing old ∧
      s.lines = site.before.reverse ++ (old ++ site.after) := by
  obtain ⟨old, landing, made, cut, -⟩ := Site.foundAt_of_ofBranch? decided
  exact ⟨old, landing, made, (far_of_firstFar? far).1.symm.trans cut⟩

theorem Rounds.keeps {n : Nat} {t : Stream} (rounds : Rounds n s t)
    (step : ∀ {s : Stream} {site : Site} {old landing : List Line}, site.Made landing old →
      s.lines = site.before.reverse ++ (old ++ site.after) → P s → P (s.repairSite site))
    (holds : P s) : P t := by
  induction rounds with
  | none => exact holds
  | next far decided _ ih =>
    obtain ⟨old, landing, made, shape⟩ := exists_made_of_far far decided
    exact ih (step made shape holds)

/--
Repairs are made round by round, until all that may be made are made, no branch is out of reach, or
one has no target.
-/
theorem exists_rounds (bound : Nat) (s : Stream) :
    ∃ n t, Rounds n s t ∧ (s.repairUpTo bound = (t, none) ∧
      (n = bound ∨ firstFar? t.name [] t.lines = .ok none) ∨
        ∃ defect, s.repairUpTo bound = (t, some defect) ∧
          firstFar? t.name [] t.lines = .error defect) := by
  induction bound generalizing s with
  | zero => exact ⟨0, s, .none s, .inl ⟨rfl, .inl rfl⟩⟩
  | succ bound ih =>
    rw [repairUpTo]
    cases found : firstFar? s.name [] s.lines with
    | error defect => exact ⟨0, s, .none s, .inr ⟨defect, rfl, found⟩⟩
    | ok spot? =>
      cases spot? with
      | none => exact ⟨0, s, .none s, .inl ⟨rfl, .inr found⟩⟩
      | some spot =>
        obtain ⟨site, decided⟩ := Option.isSome_iff_exists.mp
          (Site.ofBranch?_isSome (far_of_firstFar? found).2.1)
        obtain ⟨n, t, rounds, ends⟩ := ih (s.repairSite site)
        refine ⟨n + 1, t, .next found decided rounds, ?_⟩
        simp only [decided]
        exact ends.imp_left fun ⟨done, last⟩ => ⟨done, last.imp_left (congrArg (· + 1))⟩

theorem repairUpTo_keeps (bound : Nat)
    (step : ∀ {s : Stream} {site : Site} {old landing : List Line}, site.Made landing old →
      s.lines = site.before.reverse ++ (old ++ site.after) → P s → P (s.repairSite site))
    (holds : P s) : P (s.repairUpTo bound).1 := by
  obtain ⟨n, t, rounds, ⟨done, -⟩ | ⟨_, done, -⟩⟩ := exists_rounds bound s <;> rw [done] <;>
    exact rounds.keeps step holds

/-- Repairs go through if every branch that they are made for has a target. -/
theorem repairUpTo_of_served (bound : Nat) (s : Stream) (served : Served s.lines) :
    (s.repairUpTo bound).2 = none := by
  obtain ⟨n, t, rounds, ⟨done, -⟩ | ⟨_, -, fails⟩⟩ := exists_rounds bound s
  · rw [done]
  · refine absurd fails
      (Served.firstFar?_ne_error (rounds.keeps (P := fun t => Served t.lines) ?_ served))
    intro s site old landing made shape served
    rw [shape] at served
    rw [lines_repairSite]
    exact served.repaired made _

theorem repairUpTo_defect (bound : Nat) (s : Stream) (targeted : Targeted s.lines) :
    (s.repairUpTo bound).2 = none :=
  repairUpTo_of_served bound s targeted.served

end Stream

theorem passing_of_branches (branches : i.mnemonic? = some .beq ∨ i.mnemonic? = some .bne) :
    i.Passing ∧ i.isConditional = true := by
  rcases branches with found | found <;>
    exact ⟨passing_of_mnemonic? found rfl, by
      rw [Instruction.isConditional, Instruction.op_of_mnemonic? found]
      rfl⟩

theorem labelNames_of_drops (drops : List.Forall₂ Drops old new) :
    labelNames new = labelNames old := by
  induction drops with
  | nil => rfl
  | cons head _ ih =>
    cases head with
    | same =>
      unfold labelNames at ih ⊢
      rw [List.filterMap_cons, List.filterMap_cons, ih]
    | removed | jump => exact ih

/-- An instruction that is left was there before, or it is a jump in the place of a branch. -/
theorem instruction_of_drops (drops : List.Forall₂ Drops old new)
    (inside : .instruction i ∈ new) : .instruction i ∈ old ∨
      ∃ j, .instruction j ∈ old ∧ j.isConditional = true ∧ i = .jump j.operand := by
  induction drops with
  | nil => cases inside
  | cons head _ ih =>
    rcases List.mem_cons.mp inside with rfl | later
    · cases head with
      | same => exact .inl List.mem_cons_self
      | @jump j _ branches =>
        exact .inr ⟨j, List.mem_cons_self, (passing_of_branches branches).2, rfl⟩
    · rcases ih later with before | ⟨j, before, branches, same⟩
      · exact .inl (List.mem_cons_of_mem _ before)
      · exact .inr ⟨j, List.mem_cons_of_mem _ before, branches, same⟩

theorem Targeted.drops (targeted : Targeted old)
    (drops : List.Forall₂ Drops old new) : Targeted new := by
  intro i inside conditional
  rw [labelNames_of_drops drops]
  rcases instruction_of_drops drops inside with before | ⟨j, -, -, rfl⟩
  · exact targeted i before conditional
  · cases conditional

end Backend6502.Code
