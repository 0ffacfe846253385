import Backend6502.Proofs.KnownRegisters

/-!
# Lines that can be swapped

A line that does nothing but set flags that nobody reads can go, and a branch that always goes the
same way can go or become a jump. The lines around it keep their places, so a run through the new
lines goes along with the run through the old ones, line by line (`Parallel`).
-/

namespace Backend6502.Code

open Cpu (Mnemonic Flag State)

/-- After the lines before it (nearest first), an instruction does nothing but set flags. -/
inductive Redundant (before : List Line) (i : Instruction) : Mnemonic → Prop where
  /-- The register holds what is loaded. -/
  | load {m : Mnemonic} {value : UInt8} (immediate : i.immediate? = some value)
      (held : (knownAfter before).loaded m = some value) : Redundant before i m
  /-- The accumulator has just been stored in the place that it is loaded from. -/
  | reload {first : Instruction} {above : List Line}
      (nearest : nearestInstruction? before = some (first, above))
      (stores : first.mnemonic? = some .sta) (direct : first.mode.isDirect = true)
      (mode : first.mode = i.mode) (operand : first.operand = i.operand) : Redundant before i .lda
  | compare {m : Mnemonic} (compares : (m == .cmp || m == .cpx || m == .cpy) = true) :
      Redundant before i m

namespace Redundant

variable {before : List Line} {i : Instruction} {m : Mnemonic}

theorem isStraight (redundant : Redundant before i m) : m.isStraight = true := by
  cases redundant with
  | load _ held => cases m <;> first | rfl | cases held
  | reload => rfl
  | compare compares => cases m <;> first | rfl | cases compares

theorem execute {w : Surroundings} {s : State} (redundant : Redundant before i m)
    (holds : (knownAfter before).Holds s)
    (left : ∀ first above, nearestInstruction? before = some (first, above) → first.Left w s) :
    State.UpToFlags (s.execute m (w.access i s)) s ∧
      ∀ f : Flag, f.sets m = true ∨ f.Same (s.execute m (w.access i s)) s := by
  have signs {m : Mnemonic} (set : Flag.signs.sets m = true) (b : UInt8) :
      State.UpToFlags (s.setNZ b) s ∧ ∀ f : Flag, f.sets m = true ∨ f.Same (s.setNZ b) s := by
    refine ⟨rfl, fun f => ?_⟩
    cases f with
    | signs => exact .inl set
    | carry => exact .inr rfl
  cases redundant with
  | @load m value immediate held =>
    rw [Surroundings.access_of_immediate? immediate]
    cases m with
    | lda =>
      obtain rfl : s.a = value := holds.a value held
      exact signs rfl s.a
    | ldx =>
      obtain rfl : s.x = value := holds.x value held
      exact signs rfl s.x
    | ldy =>
      obtain rfl : s.y = value := holds.y value held
      exact signs rfl s.y
    | _ => cases held
  | @reload first above nearest stores direct mode operand =>
    have place : w.access i s = w.access first s := by
      unfold Surroundings.access Surroundings.operandWord Instruction.immediate?
      rw [mode, operand]
    have stored : s.load (w.access i s) = s.a := by
      rw [place]
      exact (left first above nearest).stored stores direct
    change State.UpToFlags (s.setA (s.load (w.access i s))) s ∧ _
    rw [State.execute, stored]
    exact signs rfl s.a
  | compare compares =>
    cases m with
    | cmp | cpx | cpy => exact ⟨rfl, fun f => .inl (by cases f <;> rfl)⟩
    | _ => cases compares

end Redundant

/-- After the lines before it, a branch on the zero flag is always taken, or never. -/
inductive Decided (before : List Line) (j : Instruction) : Bool → Prop where
  | intro {first : Instruction} {above : List Line} {m : Mnemonic} {value held : UInt8}
      {equal : Bool} (nearest : nearestInstruction? before = some (first, above))
      (compares : first.mnemonic? = some m) (immediate : first.immediate? = some value)
      (known : (knownAfter before).compared m = some held)
      (branches : j.mnemonic? = some (if equal then .beq else .bne)) :
      Decided before j (equal == (held == value))

namespace Decided

variable {before : List Line} {j : Instruction} {taken : Bool}

theorem mnemonic? (decided : Decided before j taken) :
    ∃ m, j.mnemonic? = some m ∧ (m == .beq || m == .bne) = true := by
  cases decided with
  | @intro _ _ _ _ _ equal _ _ _ _ branches =>
    refine ⟨_, branches, ?_⟩
    cases equal <;> rfl

theorem flow {w : Surroundings} {s : State} (decided : Decided before j taken)
    (holds : (knownAfter before).Holds s)
    (left : ∀ first above, nearestInstruction? before = some (first, above) → first.Left w s) :
    j.flow w s = if taken then .jump j.operand else .next s := by
  cases decided with
  | @intro first above m value held equal nearest compares immediate known branches =>
    have zero : s.zero = (held == value) :=
      (left first above nearest).compared m held value compares (holds.compared known) immediate
    rw [Instruction.flow_known (Instruction.op_of_mnemonic? branches), ← zero]
    cases equal with
    | true =>
      rw [if_pos rfl, Instruction.flowAs_branch rfl, Bool.true_beq]
      rfl
    | false =>
      rw [if_neg Bool.false_ne_true, Instruction.flowAs_branch rfl, Bool.false_beq]
      rfl

end Decided

/-- What may stand in the place of a line, given the lines around it. -/
inductive Swap (lines before rest : List Line) : Line → Line → Prop where
  | same (line : Line) : Swap lines before rest line line
  | redundant {i : Instruction} {m : Mnemonic} (found : i.mnemonic? = some m)
      (redundant : Redundant before i m)
      (unread : ∀ f : Flag, f.sets m = true → ¬Reads f lines rest) :
      Swap lines before rest (.instruction i) .removed
  | never {j : Instruction} (decided : Decided before j false) :
      Swap lines before rest (.instruction j) .removed
  | always {j : Instruction} (decided : Decided before j true) :
      Swap lines before rest (.instruction j) (.instruction (.jump j.operand))

/-- Lines that are swapped one by one, after the lines before them. -/
inductive Swaps (lines : List Line) : (before rest new : List Line) → Prop where
  | nil {before : List Line} : Swaps lines before [] []
  | cons {before rest new : List Line} {line other : Line}
      (swap : Swap lines before rest line other) (others : Swaps lines (line :: before) rest new) :
      Swaps lines before (line :: rest) (other :: new)

namespace Swaps

variable {lines all before rest new : List Line}

theorem refl (lines before rest : List Line) : Swaps lines before rest rest := by
  induction rest generalizing before with
  | nil => exact .nil
  | cons line rest ih => exact .cons (.same line) (ih _)

theorem single {above : List Line} {line other : Line}
    (swap : Swap lines (above.reverse ++ before) rest line other) :
    Swaps lines before (above ++ line :: rest) (above ++ other :: rest) := by
  induction above generalizing before with
  | nil => exact .cons swap (.refl _ _ _)
  | cons head above ih =>
    refine .cons (.same head) (ih ?_)
    rwa [List.reverse_cons, List.append_assoc] at swap

theorem fromLabel? (swaps : Swaps lines before rest new) (name : String) :
    (fromLabel? name rest = none ∧ fromLabel? name new = none) ∨
      ∃ above below others, fromLabel? name rest = some (.label name :: below) ∧
        fromLabel? name new = some (.label name :: others) ∧
        Swaps lines above (.label name :: below) (.label name :: others) := by
  induction swaps with
  | nil => exact .inl ⟨rfl, rfl⟩
  | @cons before rest new line other swap tail ih =>
    rw [Code.fromLabel?, Code.fromLabel?]
    rcases ih with ⟨missing, gone⟩ | ⟨above, below, others, found, there, deeper⟩
    · rw [missing, gone]
      cases swap with
      | same =>
        cases same : line.isLabel name with
        | false => exact .inl ⟨rfl, rfl⟩
        | true =>
          cases line with
          | label other =>
            cases eq_of_beq (show (other == name) = true from same)
            exact .inr ⟨before, rest, new, rfl, rfl, .cons (.same _) tail⟩
          | _ => cases same
      | redundant | never | always => exact .inl ⟨rfl, rfl⟩
    · rw [found, there]
      exact .inr ⟨above, below, others, rfl, rfl, deeper⟩

end Swaps

theorem Reads.of_swaps {f : Flag} {lines other before rest new : List Line}
    (whole : Swaps lines [] lines other) (swaps : Swaps lines before rest new)
    (reads : Reads f other new) : Reads f lines rest := by
  induction reads generalizing before rest with
  | here reads =>
    cases swaps with
    | cons swap others =>
      cases swap with
      | same => exact .here reads
      | redundant | never => cases reads
      | always => cases f <;> cases reads
  | next passes _ ih =>
    cases swaps with
    | cons swap others =>
      have later := ih others
      cases swap with
      | same => exact .next passes later
      | @redundant i m found redundant unread =>
        refine .next ?_ later
        rw [Line.passes, Instruction.entry?_of_mnemonic? found, Option.any_some,
          redundant.isStraight, Bool.true_or, Bool.true_and, Bool.not_eq_true',
          Bool.eq_false_iff]
        exact fun set => unread f set later
      | never decided =>
        obtain ⟨m, found, branches⟩ := decided.mnemonic?
        refine .next ?_ later
        rw [Line.passes, Instruction.entry?_of_mnemonic? found]
        cases f <;> cases m <;> first | rfl | cases branches
      | always => cases passes
  | jump goes target _ ih =>
    cases swaps with
    | cons swap others =>
      rcases whole.fromLabel? _ with ⟨-, gone⟩ | ⟨above, below, others, found, there, deeper⟩
      · rw [gone] at target
        cases target
      · rw [there] at target
        cases target
        have later := ih deeper
        cases swap with
        | same => exact .jump goes found later
        | redundant | never => cases goes
        | @always j decided =>
          obtain ⟨m, known, branches⟩ := decided.mnemonic?
          refine .jump ?_ found later
          rw [Line.goesTo, Instruction.steers, Instruction.entry?_of_mnemonic? known]
          cases m <;> first | exact goes | cases branches

/-- Two points of runs, at the same place of the old lines and of the new ones. -/
structure Parallel (w : Surroundings) (lines new : List Line) (p q : Point) : Prop where
  swaps : ∃ before, Swaps lines before p.rest q.rest ∧ Knows w before p.rest p.cpu
  blurs : Blurs new q.rest p.cpu q.cpu
  tabled : Tabled p.rest

namespace Parallel

variable {w : Surroundings} {lines new : List Line} {p q : Point}

theorem start (whole : Swaps lines [] lines new) (tabled : Tabled lines) (cpu : State) :
    Parallel w lines new ⟨lines, cpu⟩ ⟨new, cpu⟩ where
  swaps := ⟨[], whole, .inr ⟨Known.holds_nothing cpu, fun i above found => by cases found⟩⟩
  blurs := .refl new new cpu
  tabled := tabled

theorem jump {rest others : List Line} {line other : Line} {s t : State} {label : String}
    (whole : Swaps lines [] lines new) (tabled : Tabled lines)
    (blurs : Blurs new (other :: others) s t) (flow : line.flow w s = .jump label)
    (along : other.flow w t = .jump label) :
    ((⟨line :: rest, s⟩ : Point).step? w lines = none ∧
        (⟨other :: others, t⟩ : Point).step? w new = none) ∨
      ∃ p q, (⟨line :: rest, s⟩ : Point).step? w lines = some p ∧
        (⟨other :: others, t⟩ : Point).step? w new = some q ∧ Parallel w lines new p q := by
  rcases whole.fromLabel? label with ⟨missing, gone⟩ | ⟨above, below, later, found, there, swaps⟩
  · left
    simp only [Point.step?, flow, along, missing, gone, Option.map_none, and_self]
  · refine .inr ⟨_, _, Point.step?_of_jump flow found, Point.step?_of_jump along there, ?_⟩
    exact {
      swaps := ⟨above, swaps, .inl ⟨label, below, rfl⟩⟩
      blurs := blurs.jump (Line.goesTo_of_flow along) there
      tabled := fun line inside => tabled line ((fromLabel?_suffix found).subset inside) }

section

variable (blind : w.IsBlind)
  (whole : Swaps lines [] lines new)
  (tabled : Tabled lines)
  (parallel : Parallel w lines new p q)

include blind whole tabled parallel

/-- Both runs take a step or end together. -/
theorem step : (p.step? w lines = none ∧ q.step? w new = none) ∨
      ∃ p' q', p.step? w lines = some p' ∧ q.step? w new = some q' ∧
        Parallel w lines new p' q' := by
  obtain ⟨rest, s⟩ := p
  obtain ⟨others, t⟩ := q
  obtain ⟨⟨before, swaps, knows⟩, blurs, own⟩ := parallel
  cases swaps with
  | nil => exact .inl ⟨rfl, rfl⟩
  | @cons _ rest others line other swap swaps =>
    have next {s' t' : State} (flow : line.flow w s = .next s') (along : other.flow w t = .next t')
        (blurs : Blurs new others s' t') :
        ∃ p' q', (⟨line :: rest, s⟩ : Point).step? w lines = some p' ∧
          (⟨other :: others, t⟩ : Point).step? w new = some q' ∧ Parallel w lines new p' q' := by
      refine ⟨_, _, Point.step?_of_next flow, Point.step?_of_next along, ?_⟩
      exact {
        swaps := ⟨line :: before, swaps, knows.next own.listed flow⟩
        blurs := blurs
        tabled := fun line inside => own line (List.mem_cons_of_mem _ inside) }
    cases swap with
    | same =>
      rcases blurs.flow blind with ⟨flow, along⟩ | ⟨label, flow, along⟩ |
        ⟨s', t', flow, along, blurs⟩
      · left
        simp only [Point.step?, flow, along, and_self]
      · exact jump whole tabled blurs flow along
      · exact .inr (next flow along blurs)
    | @redundant i m found redundant unread =>
      rcases knows with ⟨_, _, label⟩ | ⟨holds, left⟩
      · cases label
      · obtain ⟨alike, kept⟩ := redundant.execute holds left
        have flow : (Line.instruction i).flow w s = .next (s.execute m (w.access i s)) := by
          change i.flow w s = _
          rw [Instruction.flow_known (Instruction.op_of_mnemonic? found),
            Instruction.flowAs_straight redundant.isStraight]
        refine .inr (next flow rfl ⟨alike.trans blurs.alike, fun f reads => ?_⟩)
        rcases kept f with set | same
        · exact absurd (reads.of_swaps whole swaps) (unread f set)
        · exact same.trans (blurs.flags f (.next rfl reads))
    | never decided =>
      rcases knows with ⟨_, _, label⟩ | ⟨holds, left⟩
      · cases label
      · exact .inr (next (decided.flow holds left) rfl (blurs.next fun _ => rfl))
    | always decided =>
      rcases knows with ⟨_, _, label⟩ | ⟨holds, left⟩
      · cases label
      · exact jump whole tabled blurs (decided.flow holds left) rfl

theorem after (n : Nat) : Parallel w lines new (p.after w lines n) (q.after w new n) := by
  induction n generalizing p q with
  | zero => exact parallel
  | succ n ih =>
    rw [Point.after, Point.after]
    rcases parallel.step blind whole tabled with ⟨ends, stops⟩ | ⟨p', q', step, along, further⟩
    · rw [ends, stops]
      exact parallel
    · rw [step, along]
      exact ih further

end

end Parallel

end Backend6502.Code
