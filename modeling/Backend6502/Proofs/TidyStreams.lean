import Mathlib.Logic.Relation
import Backend6502.Proofs.LineSwaps

/-!
# Streams that the optimizer understands

The optimizer takes three things for granted: that nobody needs what was pulled when it is pushed
again, that a store through a pointer leaves the pointer as it was, and that only the next
instruction can read the flags of a compare after its branch. In a tidy stream nothing of the kind
can go wrong. Every reduction then is a chain of swaps, and the stream stays tidy.
-/

namespace Backend6502.Code

open Cpu (Mnemonic Flag)

variable {lines new : List Line} {i : Instruction}
variable {gap above before below after rest old : List Line} {line other : Line} {j : Instruction}
  {p : Instruction → Bool}

namespace Instruction

def isCompare (i : Instruction) : Bool :=
  i.mnemonic?.any fun m => m == .cmp || m == .cpx || m == .cpy

def isEquality (i : Instruction) : Bool :=
  i.mnemonic?.any fun m => m == .beq || m == .bne

def isLoad (i : Instruction) : Bool :=
  i.mnemonic?.any fun m => m == .lda || m == .ldx || m == .ldy

/-- May the optimizer take it away, in a tidy stream? -/
def isFleeting (i : Instruction) : Bool :=
  i.isLoad || i.isCompare || i.isEquality

/-- Does it compare with a constant, for a branch that may be decided by that? -/
def decides (i j : Instruction) : Bool :=
  i.isCompare && i.immediate?.isSome && !i.isProtected && j.isEquality && !j.isProtected

/-- Would the other instruction, coming next, be taken away although it has an effect? -/
def clashes (i j : Instruction) : Bool :=
  (i.mnemonic? == some .pla && j.mnemonic? == some .pha && !i.isProtected && !j.isProtected) ||
    (i.mnemonic? == some .sta && j.mnemonic? == some .lda && !j.isProtected && !i.mode.isDirect &&
      i.mode == j.mode && i.operand == j.operand)

variable {i : Instruction}

theorem readsCompare_of_isEquality (equality : i.isEquality = true) : i.readsCompare = true := by
  obtain ⟨m, found, branches⟩ := (Option.any_eq_true _ _).mp equality
  rw [readsCompare, found]
  cases m <;> first | rfl | cases branches

theorem readsCompare_of_isLoad (loads : i.isLoad = true) : i.readsCompare = false := by
  obtain ⟨m, found, known⟩ := (Option.any_eq_true _ _).mp loads
  rw [readsCompare, found]
  cases m <;> first | rfl | cases known

theorem readsCompare_of_isCompare (compares : i.isCompare = true) : i.readsCompare = false := by
  obtain ⟨m, found, known⟩ := (Option.any_eq_true _ _).mp compares
  rw [readsCompare, found]
  cases m <;> first | rfl | cases known

theorem not_clashes_jump (label : String) : i.clashes (.jump label) = false := by
  simp [clashes, mnemonic?, jump]

end Instruction

/-- Does such an instruction come next, apart from what is silent or may be taken away? -/
def meets (p : Instruction → Bool) : List Line → Bool
  | .comment _ :: rest | .removed :: rest => meets p rest
  | .instruction i :: rest => p i || (i.isFleeting && meets p rest)
  | _ => false

/-- Are there two instructions, one coming next after the other, that clash? -/
def hasClash : List Line → Bool
  | [] => false
  | .instruction i :: rest => meets i.clashes rest || hasClash rest
  | .label _ :: rest | .verbatim _ :: rest | .comment _ :: rest | .removed :: rest => hasClash rest

/-- Nobody reads the flags after a branch, taken or not. -/
def Settled (lines : List Line) (j : Instruction) (below : List Line) : Prop :=
  ∀ f : Flag, ¬Reads f lines below ∧
    ∀ found, fromLabel? j.operand lines = some found → ¬Reads f lines found

/-- The lines have no instructions that the optimizer would be wrong to take away. -/
structure Tidy (lines : List Line) : Prop where
  apart : hasClash lines = false
  /--
  Where a branch may go together with the compare before it, the flags are not read after it. If the
  next instruction reads them, the two stay.
  -/
  settled : ∀ before below i j above, lines = before.reverse ++ .instruction j :: below →
    nearestInstruction? before = some (i, above) → i.decides j = true →
    readsCompareNext below = false → Settled lines j below

theorem nearestInstruction?_of_silent (silent : ∀ line ∈ gap, line.isSilent = true)
    (rest : List Line) : nearestInstruction? (gap ++ rest) = nearestInstruction? rest := by
  induction gap with
  | nil => rfl
  | cons line gap ih =>
    obtain ⟨head, others⟩ := List.forall_mem_cons.mp silent
    rw [← ih others, nearestInstruction?, List.cons_append, nearest?, if_pos head]
    rfl

/-- The next instruction is among some lines, whatever follows them, unless they are silent. -/
theorem nearestInstruction?_append (gap : List Line) :
    (∀ line ∈ gap, line.isSilent = true) ∨
      ∃ found : Option (Instruction × List Line), ∀ rest,
        nearestInstruction? (gap ++ rest) = found.map fun next => (next.1, next.2 ++ rest) := by
  induction gap with
  | nil => exact .inl fun line inside => by cases inside
  | cons line gap ih =>
    cases silent : line.isSilent with
    | true =>
      have skip (rest : List Line) :
          nearestInstruction? (line :: gap ++ rest) = nearestInstruction? (gap ++ rest) := by
        rw [nearestInstruction?, List.cons_append, nearest?, if_pos silent]
        rfl
      rcases ih with others | ⟨found, next⟩
      · exact .inl (List.forall_mem_cons.mpr ⟨silent, others⟩)
      · exact .inr ⟨found, fun rest => (skip rest).trans (next rest)⟩
    | false =>
      right
      cases line with
      | instruction i => exact ⟨some (i, gap), fun rest => rfl⟩
      | label name => exact ⟨none, fun rest => rfl⟩
      | verbatim text => exact ⟨none, fun rest => rfl⟩
      | comment text => cases silent
      | removed => cases silent

/-- Two lines of a list are the same, or one is above the other. -/
theorem places (same : above.reverse ++ line :: below = before.reverse ++ other :: after) :
    (above = before ∧ line = other ∧ below = after) ∨
      (∃ gap, after = gap ++ line :: below ∧ above = gap.reverse ++ other :: before) ∨
      ∃ gap, below = gap ++ other :: after ∧ before = gap.reverse ++ line :: above := by
  rcases cut_append same with ⟨gap, ends, starts⟩ | ⟨gap, ends, rfl⟩
  · cases gap with
    | nil =>
      cases starts
      rw [List.append_nil] at ends
      exact .inl ⟨(List.reverse_injective ends).symm, rfl, rfl⟩
    | cons first gap =>
      cases starts
      refine .inr (.inr ⟨gap, rfl, ?_⟩)
      rw [← List.reverse_reverse before, ends]
      simp
  · refine .inr (.inl ⟨gap, rfl, ?_⟩)
    rw [← List.reverse_reverse above, ends]
    simp

theorem Settled.of_swaps (whole : Swaps lines [] lines new)
    (swaps : Swaps lines before below after) (settled : Settled lines j below) :
    Settled new j after := by
  refine fun f => ⟨fun reads => (settled f).1 (reads.of_swaps whole swaps), ?_⟩
  intro found target reads
  rcases whole.fromLabel? j.operand with ⟨-, gone⟩ | ⟨above, below, others, here, there, deeper⟩
  · rw [gone] at target
    cases target
  · rw [there] at target
    cases target
    exact (settled f).2 _ here (reads.of_swaps whole deeper)

/-- What becomes of a line in a tidy stream. -/
inductive Thins : Line → Line → Prop where
  | same (line : Line) : Thins line line
  | removed {i : Instruction} (fleeting : i.isFleeting = true) : Thins (.instruction i) .removed
  | jump {j : Instruction} (branches : j.isEquality = true) :
      Thins (.instruction j) (.instruction (.jump j.operand))

theorem Thins.trans {a b c : Line} (first : Thins a b) (second : Thins b c) : Thins a c := by
  cases first with
  | same => exact second
  | removed fleeting =>
    cases second
    exact .removed fleeting
  | jump branches =>
    cases second with
    | same => exact .jump branches
    | removed fleeting => cases fleeting
    | jump again => cases again

theorem Redundant.isLoad_or_isCompare {m : Mnemonic}
    (redundant : Redundant before i m) (found : i.mnemonic? = some m) :
    i.isLoad = true ∨ i.isCompare = true := by
  unfold Instruction.isLoad Instruction.isCompare
  rw [found]
  cases redundant with
  | load _ held => cases m <;> first | exact .inl rfl | cases held
  | reload => exact .inl rfl
  | compare compares => exact .inr compares

theorem Decided.isEquality {taken : Bool} (decided : Decided before j taken) :
    j.isEquality = true := by
  obtain ⟨m, found, branches⟩ := decided.mnemonic?
  rw [Instruction.isEquality, found]
  exact branches

theorem Swap.thins (swap : Swap lines before rest line other) :
    Thins line other := by
  cases swap with
  | same => exact .same line
  | redundant found redundant =>
    refine .removed ?_
    rcases redundant.isLoad_or_isCompare found with loads | compares
    · rw [Instruction.isFleeting, loads, Bool.true_or, Bool.true_or]
    · rw [Instruction.isFleeting, compares, Bool.or_true, Bool.true_or]
  | never decided =>
    refine .removed ?_
    rw [Instruction.isFleeting, decided.isEquality, Bool.or_true]
  | always decided => exact .jump decided.isEquality

theorem Swaps.thins (swaps : Swaps lines before rest new) :
    List.Forall₂ Thins rest new := by
  induction swaps with
  | nil => exact .nil
  | cons swap _ ih => exact .cons swap.thins ih

theorem meets_of_thins (still : ∀ label, p (.jump label) = false)
    (thins : List.Forall₂ Thins old new) (met : meets p new = true) : meets p old = true := by
  induction thins with
  | nil => cases met
  | @cons line other _ _ head _ ih =>
    cases head with
    | same =>
      cases line with
      | instruction i =>
        rw [meets, Bool.or_eq_true, Bool.and_eq_true] at met ⊢
        exact met.imp_right fun further => ⟨further.1, ih further.2⟩
      | comment text => exact ih met
      | removed => exact ih met
      | label name => cases met
      | verbatim text => cases met
    | removed fleeting =>
      rw [meets, fleeting, Bool.true_and, ih met, Bool.or_true]
    | jump =>
      rw [meets, still] at met
      cases met

theorem not_meets (never : ∀ j, p j = false) (lines : List Line) : meets p lines = false := by
  induction lines with
  | nil => rfl
  | cons line lines ih =>
    cases line with
    | instruction i => rw [meets, never, ih, Bool.and_false, Bool.or_false]
    | comment text => exact ih
    | removed => exact ih
    | label name => rfl
    | verbatim text => rfl

theorem hasClash_of_thins (thins : List.Forall₂ Thins old new)
    (clash : hasClash new = true) : hasClash old = true := by
  induction thins with
  | nil => cases clash
  | @cons line other _ _ head tail ih =>
    cases head with
    | same =>
      cases line with
      | instruction i =>
        rw [hasClash, Bool.or_eq_true] at clash ⊢
        exact clash.imp (meets_of_thins (fun _ => Instruction.not_clashes_jump _) tail) ih
      | comment text => exact ih clash
      | removed => exact ih clash
      | label name => exact ih clash
      | verbatim text => exact ih clash
    | removed => rw [hasClash, ih clash, Bool.or_true]
    | @jump j _ =>
      have unmet := not_meets (p := (Instruction.jump j.operand).clashes) fun _ => rfl
      rw [hasClash, unmet, Bool.false_or] at clash
      rw [hasClash, ih clash, Bool.or_true]

theorem hasClash_append (above : List Line) (clash : hasClash lines = true) :
    hasClash (above ++ lines) = true := by
  induction above with
  | nil => exact clash
  | cons line above ih =>
    cases line with
    | instruction i => rw [List.cons_append, hasClash, ih, Bool.or_true]
    | _ => exact ih

theorem meets_of_silent (silent : ∀ line ∈ gap, line.isSilent = true) :
    meets p (gap ++ rest) = meets p rest := by
  induction gap with
  | nil => rfl
  | cons line gap ih =>
    obtain ⟨head, others⟩ := List.forall_mem_cons.mp silent
    cases line with
    | comment text => exact ih others
    | removed => exact ih others
    | _ => cases head

theorem Tidy.not_clashes {first : Instruction}
    (tidy : Tidy (before.reverse ++ .instruction i :: rest))
    (nearest : nearestInstruction? before = some (first, above)) : first.clashes i = false := by
  obtain ⟨gap, silent, rfl⟩ := nearestInstruction?_eq_some nearest
  rw [Bool.eq_false_iff]
  intro clash
  have clashing : hasClash (.instruction first :: (gap.reverse ++ .instruction i :: rest)) =
      true := by
    rw [hasClash, meets_of_silent fun line inside => silent line (List.mem_reverse.mp inside),
      meets, clash, Bool.true_or, Bool.true_or]
  have whole := hasClash_append above.reverse clashing
  have apart := tidy.apart
  simp only [List.reverse_append, List.reverse_cons, List.append_assoc, List.cons_append,
    List.nil_append] at apart whole
  rw [apart] at whole
  cases whole

/-- One line of a stream is swapped, and no branch on the zero flag comes next after it. -/
inductive Change : List Line → List Line → Prop where
  | intro {before rest : List Line} {line other : Line}
      (swap : Swap (before.reverse ++ line :: rest) before rest line other)
      (steady : ∀ j below, nearestInstruction? rest = some (j, below) → j.isEquality = false) :
      Change (before.reverse ++ line :: rest) (before.reverse ++ other :: rest)

namespace Change

variable {i : Instruction}
variable {lines new : List Line}
variable {before rest above gap : List Line} {j : Instruction} {other line : Line}

theorem swaps (change : Change lines new) : Swaps lines [] lines new := by
  cases change with
  | intro swap =>
    refine .single ?_
    rw [List.reverse_reverse, List.append_nil]
    exact swap

theorem tabled (change : Change lines new) (tabled : Tabled lines) : Tabled new := by
  have thins := change.swaps.thins
  clear change
  induction thins with
  | nil => exact tabled
  | cons head _ ih =>
    obtain ⟨first, others⟩ := List.forall_mem_cons.mp tabled
    refine List.forall_mem_cons.mpr ⟨?_, ih others⟩
    cases head with
    | same => exact first
    | removed => exact True.intro
    | jump => exact ⟨.absolute, rfl⟩

/-- What is swapped after a branch on the zero flag does not read what a compare sets. -/
theorem readsCompare_of_swap
    (swap : Swap lines before rest (.instruction i) other) (changed : other ≠ .instruction i)
    (nearest : nearestInstruction? before = some (j, above)) (branches : j.isEquality = true) :
    i.readsCompare = false := by
  have undecided {taken : Bool} (decided : Decided before i taken) : False := by
    cases decided with
    | @intro _ _ m _ _ _ first compares immediate known =>
      cases first.symm.trans nearest
      obtain ⟨_, found, equality⟩ := (Option.any_eq_true _ _).mp branches
      cases found.symm.trans compares
      cases m <;> first | (cases equality; done) | cases known
  cases swap with
  | same => exact absurd rfl changed
  | redundant found redundant =>
    rcases redundant.isLoad_or_isCompare found with loads | compares
    · exact Instruction.readsCompare_of_isLoad loads
    · exact Instruction.readsCompare_of_isCompare compares
  | never decided | always decided => exact (undecided decided).elim

theorem settled_above (tidy : Tidy lines) (whole : Swaps lines [] lines new)
    (cut : lines = before.reverse ++ .instruction j :: (gap ++ line :: rest))
    (swap : Swap lines (gap.reverse ++ .instruction j :: before) rest line other)
    (changed : other ≠ line) (nearest : nearestInstruction? before = some (i, above))
    (decides : i.decides j = true) (branches : j.isEquality = true)
    (quiet : readsCompareNext (gap ++ other :: rest) = false) :
    Settled new j (gap ++ other :: rest) := by
  refine Settled.of_swaps whole (.single swap)
    (tidy.settled before _ i j above cut nearest decides ?_)
  rcases nearestInstruction?_append gap with silent | ⟨found, next⟩
  · rw [readsCompareNext, nearestInstruction?_of_silent silent]
    cases line with
    | instruction last =>
      have between : nearestInstruction? (gap.reverse ++ .instruction j :: before) =
          some (j, before) :=
        nearestInstruction?_of_silent (fun line inside =>
          silent line (List.mem_reverse.mp inside)) _
      exact readsCompare_of_swap swap changed between branches
    | label name | verbatim text => rfl
    | comment text | removed =>
      cases swap
      exact absurd rfl changed
  · rw [readsCompareNext, next] at quiet ⊢
    cases found with
    | none => rfl
    | some found => exact quiet

theorem settled_below {below : List Line} (tidy : Tidy lines)
    (whole : Swaps lines [] lines new)
    (cut : lines = (gap.reverse ++ line :: before).reverse ++ .instruction j :: below)
    (steady : ∀ last later, nearestInstruction? (gap ++ .instruction j :: below) =
      some (last, later) → last.isEquality = false)
    (nearest : nearestInstruction? (gap.reverse ++ other :: before) = some (i, above))
    (decides : i.decides j = true) (branches : j.isEquality = true)
    (quiet : readsCompareNext below = false) : Settled new j below := by
  refine Settled.of_swaps whole (.refl lines [] below) ?_
  rcases nearestInstruction?_append gap.reverse with silent | ⟨found, next⟩
  · have unmoved := steady j below (nearestInstruction?_of_silent
      (fun line inside => silent line (List.mem_reverse.mpr inside)) (.instruction j :: below))
    rw [branches] at unmoved
    cases unmoved
  · rw [next] at nearest
    obtain ⟨⟨first, further⟩, rfl, same⟩ := Option.map_eq_some_iff.mp nearest
    cases same
    exact tidy.settled _ below first j _ cut (next (line :: before)) decides quiet

theorem tidy (change : Change lines new) (tidy : Tidy lines) : Tidy new where
  apart := by
    rw [Bool.eq_false_iff]
    intro clash
    have before := hasClash_of_thins change.swaps.thins clash
    rw [tidy.apart] at before
    cases before
  settled before below i j above same nearest decides quiet := by
    have whole := change.swaps
    have branches : j.isEquality = true := by
      simp only [Instruction.decides, Bool.and_eq_true] at decides
      exact decides.1.2
    cases change with
    | @intro upper rest line other swap steady =>
      by_cases changed : other = line
      · cases changed
        exact tidy.settled before below i j above same nearest decides quiet
      · rcases places same with ⟨rfl, here, rfl⟩ | ⟨gap, rfl, rfl⟩ | ⟨gap, rfl, rfl⟩
        · -- What comes in is no branch on the zero flag.
          cases swap with
          | same => exact absurd rfl changed
          | redundant | never => cases here
          | always =>
            cases here
            cases branches
        · exact settled_above tidy whole (by simp) swap changed nearest decides branches quiet
        · have cut : upper.reverse ++ line :: (gap ++ .instruction j :: below) =
              (gap.reverse ++ line :: upper).reverse ++ .instruction j :: below := by simp
          exact settled_below tidy whole cut steady nearest decides branches quiet

end Change

theorem Tidy.changes (tidy : Tidy lines)
    (changes : Relation.ReflTransGen Change lines new) : Tidy new := by
  induction changes with
  | refl => exact tidy
  | tail _ change ih => exact change.tidy ih

theorem Tabled.changes (tabled : Tabled lines)
    (changes : Relation.ReflTransGen Change lines new) : Tabled new := by
  induction changes with
  | refl => exact tabled
  | tail _ change ih => exact change.tabled ih

end Backend6502.Code
