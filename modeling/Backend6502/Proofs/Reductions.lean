import Backend6502.Code.Peephole
import Backend6502.Proofs.RepairSite
import Mathlib.Data.List.Forall2

/-!
# Reductions

A scan of the optimizer comes to an instruction and applies one rule there (`scan_eq_some`,
`reduceAt?_eq_some`). What the rules do to a line is said once (`Drops`). Each of them takes away as
many instructions as it counts, and at least one, so the optimizer comes to streams where no rule
applies any more.
-/

namespace Backend6502.Code

open Cpu (Mnemonic)

variable {rest : List Line} {k : Known}
variable {i : Instruction} {before lines : List Line} {reduced : Reduced}

def Line.isCall : Line → Bool
  | .instruction i => i.op.entry? == some .jsr
  | _ => false

def Line.isReturn : Line → Bool
  | .instruction i => i.op.entry? == some .rts || i.op.entry? == some .rti
  | _ => false

/-- An instruction that neither calls nor returns. -/
def Instruction.Passing (i : Instruction) : Prop :=
  (Line.instruction i).isCall = false ∧ (Line.instruction i).isReturn = false

theorem passing_of_mnemonic? {m : Mnemonic} (found : i.mnemonic? = some m)
    (other : (m == .jsr || (m == .rts || m == .rti)) = false) : i.Passing := by
  obtain ⟨call, ret⟩ := Bool.or_eq_false_iff.mp other
  rw [Instruction.Passing, Line.isCall, Line.isReturn, Instruction.op_of_mnemonic? found]
  exact ⟨call, ret⟩

/-- What is known after lines, the nearest one first. -/
def knownAfter : List Line → Known
  | [] | .label _ :: _ | .verbatim _ :: _ => {}
  | .comment _ :: before | .removed :: before => knownAfter before
  | .instruction i :: before => (knownAfter before).step i

def readsCompareNext (lines : List Line) : Bool :=
  ((nearestInstruction? lines).map (·.1.readsCompare)).getD false

/-- What stands in the place of a branch that is always taken, or never. -/
def decidedLine (j : Instruction) (taken : Bool) : Line :=
  if taken then .instruction (.jump j.operand) else .removed

theorem removeNearest_of_silent {gap : List Line} (silent : ∀ line ∈ gap, line.isSilent = true) :
    removeNearest (gap ++ .instruction i :: rest) = gap ++ .removed :: rest := by
  induction gap with
  | nil => rfl
  | cons line gap ih =>
    obtain ⟨head, others⟩ := List.forall_mem_cons.mp silent
    rw [List.cons_append, removeNearest, if_pos head, ih others]
    rfl

namespace PairReduction

variable {k : Known} {first second : Instruction} {rest : List Line} {reduction : PairReduction}

theorem find?_eq_some (found : find? k first second rest = some reduction) :
    (first.mnemonic? = some .pla ∧ second.mnemonic? = some .pha ∧
        ofPull? first second rest = some reduction) ∨
      (first.mnemonic? = some .sta ∧ second.mnemonic? = some .lda ∧
        ofReload? first second rest = some reduction) ∨
      ∃ m equal, first.mnemonic? = some m ∧ (m == .cmp || m == .cpx || m == .cpy) = true ∧
        second.mnemonic? = some (if equal then .beq else .bne) ∧
        ofCompare? k m equal first second rest = some reduction := by
  unfold find? at found
  split at found
  case h_1 one two => exact .inl ⟨one, two, found⟩
  case h_2 one two => exact .inr (.inl ⟨one, two, found⟩)
  case h_9 => cases found
  all_goals
    next one two =>
      refine .inr (.inr ⟨_, _, one, rfl, ?_, found⟩)
      exact two

theorem ofPull?_eq_some (found : ofPull? first second rest = some reduction) :
    first.isProtected = false ∧ second.isProtected = false ∧ reduction = ⟨true, .removed⟩ := by
  unfold ofPull? at found
  split at found
  · cases found
  · next kept =>
    cases found
    simp only [Bool.or_eq_true, not_or, Bool.not_eq_true] at kept
    exact ⟨kept.1.1, kept.1.2, rfl⟩

theorem ofReload?_eq_some (found : ofReload? first second rest = some reduction) :
    second.isProtected = false ∧ first.mode = second.mode ∧ first.operand = second.operand ∧
      flagsLive rest = false ∧ reduction = ⟨false, .removed⟩ := by
  unfold ofReload? at found
  split at found
  · cases found
  · next kept =>
    cases found
    simp only [Bool.or_eq_true, not_or, Bool.not_eq_true, bne_eq_false_iff_eq] at kept
    exact ⟨kept.1.1.1, kept.1.1.2, kept.1.2, kept.2, rfl⟩

theorem ofCompare?_eq_some {m : Mnemonic} {equal : Bool}
    (found : ofCompare? k m equal first second rest = some reduction) :
    first.isProtected = false ∧ second.isProtected = false ∧ readsCompareNext rest = false ∧
      ∃ value held, first.immediate? = some value ∧ k.compared m = some held ∧
        reduction = ⟨true, decidedLine second (equal == (held == value))⟩ := by
  unfold ofCompare? at found
  split at found
  · cases found
  · next kept =>
    simp only [Bool.or_eq_true, not_or, Bool.not_eq_true] at kept
    refine ⟨kept.1, kept.2, ?_⟩
    split at found
    · next value held immediate known =>
      split at found
      · cases found
      · next quiet =>
        refine ⟨Bool.not_eq_true _ ▸ quiet, value, held, immediate, known, ?_⟩
        unfold decidedLine
        split at found
        · next always =>
          cases found
          rw [if_pos always]
        · next never =>
          cases found
          rw [if_neg never]
    · cases found

end PairReduction

theorem redundantLoad_eq_true
    (redundant : redundantLoad k i rest = true) :
    ∃ m value, i.mnemonic? = some m ∧ i.immediate? = some value ∧ k.loaded m = some value ∧
      i.isProtected = false ∧ flagsLive rest = false := by
  unfold redundantLoad at redundant
  split at redundant
  · cases redundant
  · next m loads =>
    split at redundant
    · next value held immediate known =>
      simp only [Bool.and_eq_true, Bool.not_eq_true', beq_iff_eq] at redundant
      obtain ⟨⟨bare, rfl⟩, dead⟩ := redundant
      exact ⟨m, held, loads, immediate, known, bare, dead⟩
    · cases redundant

/--
What a rule does to the lines: it may remove the instruction before, and puts a line in place.
-/
theorem reduceAt?_eq_some
    (found : reduceAt? k before i rest = some reduced) :
    (∃ first above reduction, nearestInstruction? before = some (first, above) ∧
        PairReduction.find? k first i rest = some reduction ∧
        reduced = ⟨(if reduction.dropFirst then removeNearest before else before).reverse ++
          reduction.second :: rest, reduction.count⟩) ∨
      redundantLoad k i rest = true ∧ reduced = ⟨before.reverse ++ .removed :: rest, 1⟩ := by
  unfold reduceAt? at found
  dsimp only at found
  split at found
  · next reduction pair =>
    obtain ⟨⟨first, above⟩, nearest, matched⟩ := Option.bind_eq_some_iff.mp pair
    cases found
    exact .inl ⟨first, above, reduction, nearest, matched, rfl⟩
  · split at found
    · next redundant =>
      cases found
      exact .inr ⟨redundant, rfl⟩
    · cases found

/-- A scan that finds something applies a rule to an instruction, with all lines above in view. -/
theorem scan_eq_some (before : List Line) {after : List Line}
    (found : scan (knownAfter before) before after = some reduced) :
    ∃ middle j below, before.reverse ++ after = middle.reverse ++ .instruction j :: below ∧
      reduceAt? (knownAfter middle) middle j below = some reduced := by
  induction after generalizing before with
  | nil => cases found
  | cons line rest ih =>
    have further (found : scan (knownAfter (line :: before)) (line :: before) rest = some reduced) :
        ∃ middle j below, before.reverse ++ line :: rest =
          middle.reverse ++ .instruction j :: below ∧
          reduceAt? (knownAfter middle) middle j below = some reduced := by
      have shape : before.reverse ++ line :: rest = (line :: before).reverse ++ rest := by simp
      rw [shape]
      exact ih (line :: before) found
    cases line with
    | instruction i =>
      rw [scan] at found
      cases here : reduceAt? (knownAfter before) before i rest with
      | some other =>
        rw [here] at found
        cases found
        exact ⟨before, i, rest, rfl, here⟩
      | none =>
        rw [here] at found
        exact further found
    | label name => exact further found
    | verbatim text => exact further found
    | comment text => exact further found
    | removed => exact further found

/-- The instructions that the optimizer may remove. -/
def dispensable : Mnemonic → Bool
  | .pha | .pla | .lda | .ldx | .ldy | .cmp | .cpx | .cpy | .beq | .bne => true
  | _ => false

/--
What the optimizer may do to a line: an instruction that is not protected is removed, or a branch on
the zero flag that is not protected gives way to a jump to its label.
-/
inductive Drops : Line → Line → Prop where
  | same (line : Line) : Drops line line
  | removed {i : Instruction} {m : Mnemonic} (bare : i.isProtected = false)
      (found : i.mnemonic? = some m) (light : dispensable m = true) :
      Drops (.instruction i) .removed
  | jump {i : Instruction} (bare : i.isProtected = false)
      (branches : i.mnemonic? = some .beq ∨ i.mnemonic? = some .bne) :
      Drops (.instruction i) (.instruction (.jump i.operand))

theorem passing_of_dispensable {m : Mnemonic} (found : i.mnemonic? = some m)
    (light : dispensable m = true) : i.Passing := by
  refine passing_of_mnemonic? found ?_
  cases m <;> first | rfl | cases light

theorem Drops.trans {a b c : Line} (first : Drops a b) (second : Drops b c) : Drops a c := by
  cases first with
  | same => exact second
  | removed bare found light =>
    cases second
    exact .removed bare found light
  | jump bare branches =>
    cases second with
    | same => exact .jump bare branches
    | removed =>
      rcases branches with beq | bne
      · exact .removed bare beq rfl
      · exact .removed bare bne rfl
    | jump _ again =>
      rcases again with beq | bne
      · cases beq
      · cases bne

theorem drops_refl (lines : List Line) : List.Forall₂ Drops lines lines :=
  List.forall₂_same.mpr fun line _ => .same line

theorem drops_trans {a b c : List Line} (first : List.Forall₂ Drops a b)
    (second : List.Forall₂ Drops b c) : List.Forall₂ Drops a c := by
  induction first generalizing c with
  | nil =>
    cases second
    exact .nil
  | cons head _ ih =>
    cases second with
    | cons next others => exact .cons (head.trans next) (ih others)

def live (lines : List Line) : Nat :=
  (lines.filterMap Line.instruction?).length

theorem live_append (first second : List Line) :
    live (first ++ second) = live first + live second := by
  rw [live, List.filterMap_append, List.length_append]
  rfl

theorem live_reverse (lines : List Line) : live lines.reverse = live lines := by
  rw [live, List.filterMap_reverse, List.length_reverse]
  rfl

/-- Lines that a rule has been applied to, with a count of the instructions that went. -/
structure Reduced.Follows (reduced : Reduced) (lines : List Line) : Prop where
  drops : List.Forall₂ Drops lines reduced.lines
  removes : 1 ≤ reduced.count
  counts : reduced.count + live reduced.lines = live lines

theorem drops_removeNearest (found : nearestInstruction? lines = some (i, rest))
    (gone : Drops (.instruction i) .removed) :
    List.Forall₂ Drops lines (removeNearest lines) ∧
      1 + live (removeNearest lines) = live lines := by
  obtain ⟨gap, silent, rfl⟩ := nearestInstruction?_eq_some found
  rw [removeNearest_of_silent silent, live_append, live_append]
  refine ⟨List.rel_append (drops_refl gap) (.cons gone (drops_refl rest)), ?_⟩
  change 1 + (live gap + live rest) = live gap + (live rest + 1)
  omega

/-- What becomes of two instructions that follow each other, and that the count is right. -/
theorem PairReduction.drops_of_find? {first second : Instruction}
    {reduction : PairReduction} (found : find? k first second rest = some reduction) :
    (reduction.dropFirst = true → Drops (.instruction first) .removed) ∧
      Drops (.instruction second) reduction.second ∧ 1 ≤ reduction.count ∧
      reduction.count + live [reduction.second] = 1 + if reduction.dropFirst then 1 else 0 := by
  rcases find?_eq_some found with
    ⟨pull, push, rule⟩ | ⟨-, loads, rule⟩ | ⟨m, equal, compares, kind, branches, rule⟩
  · obtain ⟨kept, bare, rfl⟩ := ofPull?_eq_some rule
    exact ⟨fun _ => .removed kept pull rfl, .removed bare push rfl, Nat.le_add_left .., rfl⟩
  · obtain ⟨bare, -, -, -, rfl⟩ := ofReload?_eq_some rule
    exact ⟨nofun, .removed bare loads rfl, Nat.le_refl _, rfl⟩
  · obtain ⟨kept, bare, -, value, held, -, -, rfl⟩ := ofCompare?_eq_some rule
    have gone : Drops (.instruction first) .removed := by
      refine .removed kept compares ?_
      cases m <;> first | rfl | cases kind
    refine ⟨fun _ => gone, ?_⟩
    unfold decidedLine
    cases equal == (held == value) with
    | true =>
      refine ⟨.jump bare ?_, Nat.le_refl _, rfl⟩
      cases equal
      · exact .inr branches
      · exact .inl branches
    | false =>
      refine ⟨.removed bare branches ?_, Nat.le_add_left .., rfl⟩
      cases equal <;> rfl

theorem follows_of_reduceAt?
    (found : reduceAt? k before i rest = some reduced) :
    reduced.Follows (before.reverse ++ .instruction i :: rest) := by
  have shape (above : List Line) (line : Line) :
      live (above.reverse ++ line :: rest) = live above + (live [line] + live rest) := by
    rw [live_append, live_reverse, ← live_append [line]]
    rfl
  rcases reduceAt?_eq_some found with ⟨first, above, reduction, nearest, matched, rfl⟩ |
    ⟨redundant, rfl⟩
  · obtain ⟨drops, second, removes, counts⟩ := PairReduction.drops_of_find? matched
    have upper :
        List.Forall₂ Drops before (if reduction.dropFirst then removeNearest before else before) ∧
        (if reduction.dropFirst then 1 else 0) +
          live (if reduction.dropFirst then removeNearest before else before) = live before := by
      cases dropped : reduction.dropFirst with
      | true => exact drops_removeNearest nearest (drops dropped)
      | false => exact ⟨drops_refl before, Nat.zero_add _⟩
    refine ⟨List.rel_append (List.forall₂_reverse_iff.mpr upper.1) (.cons second (drops_refl rest)),
      removes, ?_⟩
    have one : live [.instruction i] = 1 := rfl
    have above := upper.2
    dsimp only
    rw [shape, shape, one]
    omega
  · obtain ⟨m, value, loads, -, known, bare, -⟩ := redundantLoad_eq_true redundant
    have gone : Drops (.instruction i) .removed := by
      refine .removed bare loads ?_
      cases m <;> first | rfl | cases known
    refine ⟨List.rel_append (drops_refl _) (.cons gone (drops_refl rest)), Nat.le_refl _, ?_⟩
    rw [shape, shape]
    change 1 + (live before + (0 + live rest)) = live before + (1 + live rest)
    omega

theorem follows_of_scan (found : scan {} [] lines = some reduced) : reduced.Follows lines := by
  obtain ⟨middle, j, below, shape, reduces⟩ := scan_eq_some [] found
  rw [List.reverse_nil, List.nil_append] at shape
  rw [shape]
  exact follows_of_reduceAt? reduces

namespace Stream

theorem optimizeUpTo_keeps {P : Stream → Prop}
    (step : ∀ s reduced, scan {} [] s.lines = some reduced → P s →
      P { s with lines := reduced.lines, removed := s.removed + reduced.count })
    (bound : Nat) (s : Stream) (holds : P s) : P (s.optimizeUpTo bound) := by
  induction bound generalizing s with
  | zero => exact holds
  | succ bound ih =>
    rw [optimizeUpTo]
    split
    · exact holds
    · next reduced found => exact ih _ (step s reduced found holds)

section

variable (bound : Nat) (s : Stream)

include bound s

theorem drops_optimizeUpTo : List.Forall₂ Drops s.lines (s.optimizeUpTo bound).lines :=
  optimizeUpTo_keeps (P := fun t => List.Forall₂ Drops s.lines t.lines)
    (fun _ _ found drops => drops_trans drops (follows_of_scan found).drops) bound s (drops_refl _)

/-- What has been removed and what is left are together what there was. -/
theorem removed_optimizeUpTo :
    (s.optimizeUpTo bound).removed + live (s.optimizeUpTo bound).lines =
    s.removed + live s.lines := by
  refine optimizeUpTo_keeps (P := fun t => t.removed + live t.lines = s.removed + live s.lines)
    (fun t reduced found same => ?_) bound s rfl
  have counts := (follows_of_scan found).counts
  dsimp only
  omega

/--
Each reduction takes an instruction away, so after as many as there are none applies any more.
-/
theorem scan_optimizeUpTo (enough : live s.lines ≤ bound) :
    scan {} [] (s.optimizeUpTo bound).lines = none := by
  induction bound generalizing s with
  | zero =>
    cases found : scan {} [] s.lines with
    | none => exact found
    | some reduced =>
      obtain ⟨-, removes, counts⟩ := follows_of_scan found
      omega
  | succ bound ih =>
    rw [optimizeUpTo]
    cases found : scan {} [] s.lines with
    | none => exact found
    | some reduced =>
      obtain ⟨-, removes, counts⟩ := follows_of_scan found
      refine ih _ ?_
      dsimp only
      omega

theorem name_optimizeUpTo : (s.optimizeUpTo bound).name = s.name :=
  optimizeUpTo_keeps (P := fun t => t.name = s.name) (fun _ _ _ same => same) bound s rfl

theorem fixes_optimizeUpTo : (s.optimizeUpTo bound).fixes = s.fixes :=
  optimizeUpTo_keeps (P := fun t => t.fixes = s.fixes) (fun _ _ _ same => same) bound s rfl

end

theorem optimizeUpTo_of_scan {s : Stream} (rests : scan {} [] s.lines = none) (bound : Nat) :
    s.optimizeUpTo bound = s := by
  cases bound with
  | zero => rfl
  | succ bound => rw [optimizeUpTo, rests]

/--
Optimizing ends where no rule applies any more. Line by line the stream is what it was, except for
instructions without protection that are removed or give way to jumps; the number of removed
instructions grows by the instructions that are gone, and optimizing again changes nothing.
-/
theorem optimize_settles (s : Stream) :
    scan {} [] s.optimize.lines = none ∧ List.Forall₂ Drops s.lines s.optimize.lines ∧
      s.optimize.name = s.name ∧ s.optimize.fixes = s.fixes ∧
      s.optimize.instructions.length ≤ s.instructions.length ∧
      s.optimize.removed = s.removed + (s.instructions.length - s.optimize.instructions.length) ∧
      s.optimize.optimize = s.optimize := by
  have counts : s.optimize.removed + s.optimize.instructions.length =
      s.removed + s.instructions.length := removed_optimizeUpTo _ s
  have kept : s.removed ≤ s.optimize.removed :=
    optimizeUpTo_keeps (P := fun t => s.removed ≤ t.removed)
      (fun _ _ _ grown => Nat.le_trans grown (Nat.le_add_right ..)) _ s (Nat.le_refl _)
  have rests : scan {} [] s.optimize.lines = none := scan_optimizeUpTo _ s (Nat.le_refl _)
  exact ⟨rests, drops_optimizeUpTo _ s, name_optimizeUpTo _ s, fixes_optimizeUpTo _ s, by omega,
    by omega, optimizeUpTo_of_scan rests _⟩

end Stream

end Backend6502.Code
