import Backend6502.Proofs.Branching
import Backend6502.Proofs.ByteAssignments
import Backend6502.Proofs.Operands
import Backend6502.Proofs.SafeExpressions

/-!
# Comparisons

The code of a comparison goes to its label if the comparison comes out as was asked, and otherwise
goes on. It is answered by the flags after a compare, or by the flags as they are known to be.
-/

namespace Backend6502.Cpu.State

open Source (Op)
open Lowering (negated swapped)

/-- What the flags answer to a comparison: the order of signed bytes is read from the sign. -/
def answersBy (signed : Bool) (s : State) : Op → Bool
  | .eq => s.zero
  | .ne => !s.zero
  | .lt => if signed then s.negative else !s.carry
  | .ge => if signed then !s.negative else s.carry
  | .le => (if signed then s.negative else !s.carry) || s.zero
  | .gt => !s.zero && if signed then !s.negative else s.carry
  | _ => false

variable {op : Op}

theorem answersBy_negated (signed : Bool) (s : State) (compares : op.isCompare = true) :
    s.answersBy signed (negated op) = !s.answersBy signed op := by
  cases op with
  | lt | gt | le | ge | eq | ne => cases signed <;> simp [negated, answersBy, Bool.and_comm]
  | _ => cases compares

/--
The flags tell how two bytes compare: they show the difference and, if it is needed, the carry.
-/
structure Tells (s : State) (signed : Bool) (op : Op) (l r : UInt8) : Prop where
  shows : s.Shows (l - r)
  carry : s.carry = decide (r ≤ l) ∨ op = .eq ∨ op = .ne ∨ signed = true

theorem tells_compareWith (s : State) (signed : Bool) (op : Op) (l r : UInt8) :
    (s.compareWith l r).Tells signed op l r :=
  ⟨⟨rfl, rfl⟩, .inl rfl⟩

theorem Tells.answers {s : State} {l r : UInt8} (tells : s.Tells false op l r)
    (compares : op.isCompare = true) : s.answersBy false op = op.compares l r := by
  have zero : s.zero = (l == r) := tells.shows.1.trans (sub_beq_zero l r)
  rcases tells.carry with carry | rfl | rfl | signed
  · rw [Bool.eq_iff_iff]
    cases op with
    | ge | eq | ne => simp [answersBy, carry, zero, Op.compares]
    | lt | gt | le =>
      simp only [answersBy, carry, zero, Op.compares, Bool.not_eq_true', Bool.or_eq_true,
        Bool.and_eq_true, decide_eq_true_eq, decide_eq_false_iff_not, beq_iff_eq,
        beq_eq_false_iff_ne, ne_eq, UInt8.le_iff_toNat_le, UInt8.lt_iff_toNat_lt,
        ← UInt8.toNat_inj, Bool.false_eq_true, if_false]
      omega
    | _ => cases compares
  · exact zero
  · exact congrArg (!·) zero
  · cases signed

end Backend6502.Cpu.State

namespace Backend6502.Lowering

open Code (Instruction Surroundings Steps Point)
open Cpu (State Mnemonic)
open Source (Op Expr)

variable {w : Surroundings} {L : Listing} {label : String} {c d : Context} {scope : Scope}
  {u : Unit} {op : Op} {signed negate : Bool} {G : Ground} {s : State} {posed : Comparison}
  {l r : Place}

theorem compares_swapped (op : Op) (a b : UInt8) : (swapped op).compares a b = op.compares b a := by
  cases op with
  | eq => exact Bool.beq_comm
  | ne => exact bne_comm
  | _ => rfl

/-- Code that does not change the state of the processor, but jumps to a label on some states. -/
structure Branches (w : Surroundings) (L : Listing) (label : String) (answer : State → Bool)
    (c d : Context) : Prop where
  taken : ∀ s, answer s = true → ∃ line rest,
    Steps w L.lines ⟨L.ahead c, s⟩ ⟨line :: rest, s⟩ ∧ line.flow w s = .jump label
  passed : ∀ s, answer s = false → Steps w L.lines ⟨L.ahead c, s⟩ ⟨L.ahead d, s⟩

section Branching

variable {e : Context}
variable {m : Mnemonic} {first second : State → Bool}

theorem Branches.single (branches : m.isBranch = true)
    (laid : L.Holds (c.steered (.branch m label))) :
    Branches w L label (·.takes m) c (c.steered (.branch m label)) :=
  ⟨fun _ takes => escapes_taken branches laid takes,
    fun _ passes => steps_passed branches laid passes⟩

theorem Branches.either (one : Branches w L label first c d)
    (other : Branches w L label second d e) :
    Branches w L label (fun s => first s || second s) c e where
  taken s answer := by
    cases begins : first s with
    | true => exact one.taken s begins
    | false =>
      rw [begins, Bool.false_or] at answer
      obtain ⟨line, rest, steps, jumps⟩ := other.taken s answer
      exact ⟨line, rest, (one.passed s begins).trans steps, jumps⟩
  passed s answer := by
    obtain ⟨begins, ends⟩ := Bool.or_eq_false_iff.mp answer
    exact (one.passed s begins).trans (other.passed s ends)

theorem Branches.unless {past : String} (branches : m.isBranch = true) (fresh : L.Fresh d)
    (laid : L.Holds (d.labelled past)) (one : L.Holds (c.steered (.branch m past)))
    (other : Branches w L label second (c.steered (.branch m past)) d) :
    Branches w L label (fun s => !s.takes m && second s) c (d.labelled past) where
  taken s answer := by
    obtain ⟨skips, ends⟩ := Bool.and_eq_true_iff.mp answer
    have passes : s.takes m = false := by simpa using skips
    obtain ⟨line, rest, steps, jumps⟩ := other.taken s ends
    exact ⟨line, rest, (steps_passed branches one passes).trans steps, jumps⟩
  passed s answer := by
    have behind : Steps w L.lines ⟨.label past :: L.ahead (d.labelled past), s⟩
        ⟨L.ahead (d.labelled past), s⟩ := .single (Point.step?_of_next rfl)
    cases takes : s.takes m with
    | true =>
      obtain ⟨line, rest, steps, jumps⟩ := escapes_taken (w := w) branches one takes
      have found := Listing.fromLabel?_within laid fresh rfl
        (Code.fromLabel?_of_last past [] [] List.not_mem_nil)
      exact (steps.trans (.single (Point.step?_of_jump jumps found))).trans behind
    | false =>
      rw [takes, Bool.not_false, Bool.true_and] at answer
      refine ((steps_passed branches one takes).trans (other.passed s answer)).trans ?_
      rw [Listing.ahead_append (c := d) laid rfl]
      exact behind

structure Branched (w : Surroundings) (L : Listing) (label : String) (answer : State → Bool)
    (c d : Context) : Prop where
  lays : Lays [] c d
  flags : d.flags = c.flags ∨ d.flags = .unknown
  runs : L.Holds d → Branches w L label answer c d

theorem Branched.single (branches : m.isBranch = true)
    (ok : emitBranch m label scope c = .ok u d) : Branched w L label (·.takes m) c d := by
  cases emitBranch_eq_ok branches ok
  exact ⟨.steered c _, .inl rfl, .single branches⟩

theorem nextHere_eq_ok (ok : nextHere scope c = .ok label d) :
    label = (Label.here (c.ifCount + 1)).text ∧ d = c.countIf := by
  cases ok
  exact ⟨rfl, rfl⟩

theorem Branched.congr (branched : Branched w L label first c d) (same : ∀ s, first s = second s) :
    Branched w L label second c d := by
  rwa [← funext same]

/-- The branches go to the label if the flags answer that they should. -/
theorem branched_branchOn (compares : op.isCompare = true)
    (fresh : L.Fresh c) (ok : branchOn op signed label scope c = .ok u d) :
    Branched w L label (·.answersBy signed op) c d := by
  let less : Mnemonic := if signed then .bmi else .bcc
  let notLess : Mnemonic := if signed then .bpl else .bcs
  have isLess : less.isBranch = true := by cases signed <;> rfl
  have isNotLess : notLess.isBranch = true := by cases signed <;> rfl
  cases op with
  | eq => exact .single (m := .beq) rfl ok
  | ne => exact .single (m := .bne) rfl ok
  | lt =>
    refine (Branched.single isLess ok).congr fun s => ?_
    cases signed <;> rfl
  | ge =>
    refine (Branched.single isNotLess ok).congr fun s => ?_
    cases signed <;> rfl
  | le =>
    obtain ⟨_, between, begins, ends⟩ := bind_inv ok
    cases emitBranch_eq_ok isLess begins
    cases emitBranch_eq_ok rfl ends
    have first := Lays.steered c (.branch less label)
    have second := Lays.steered (c.steered (.branch less label)) (.branch .beq label)
    have branched : Branched w L label (fun s => s.takes less || s.takes .beq) c _ :=
      ⟨first.trans second, .inl rfl, fun laid =>
        .either (.single isLess (second.holds laid)) (.single rfl laid)⟩
    refine branched.congr fun s => ?_
    cases signed <;> rfl
  | gt =>
    obtain ⟨here, _, begins, ends⟩ := bind_inv ok
    obtain ⟨rfl, rfl⟩ := nextHere_eq_ok begins
    obtain ⟨_, _, begins, ends⟩ := bind_inv ends
    cases emitBranch_eq_ok rfl begins
    obtain ⟨_, _, begins, ends⟩ := bind_inv ends
    cases emitBranch_eq_ok (m := notLess) isNotLess begins
    cases putLabel_eq_ok ends
    let past := (Label.here (c.ifCount + 1)).text
    let skipping := c.countIf.steered (.branch .beq past)
    have first : Lays [] c.countIf skipping := .steered _ _
    have second := Lays.steered skipping (.branch notLess label)
    have last := Lays.label (skipping.steered (.branch notLess label)) past
    have placed := (first.trans second).trans last
    have lays := Lays.openedIf [.here (c.ifCount + 1)] (by simp)
      (by simp [Label.Within, Context.countIf]) placed
    have freshHere : L.Fresh c.countIf := fresh.of_eq rfl
    have branched : Branched w L label (fun s => !s.takes .beq && s.takes notLess) c
        ((skipping.steered (.branch notLess label)).labelled past) := by
      refine ⟨lays, .inr rfl, fun laid => ?_⟩
      have laidSecond := last.holds laid
      have runs : Branches w L label _ c.countIf _ := .unless (m := .beq) rfl
        (freshHere.grows (first.trans second).grows) laid (second.holds laidSecond)
        (.single isNotLess laidSecond)
      exact ⟨runs.taken, runs.passed⟩
    refine branched.congr fun s => ?_
    cases signed <;> rfl
  | _ => cases compares

end Branching

/-- Code has come from one state to another, and what is believed of the flags is true there. -/
structure Known (G : Ground) (s : State) (flags : Flags) (t : State) : Prop where
  near : Near G s t
  shown : flags.Shown G t

theorem Flags.Shown.byte {flags : Flags} {place : Place}
    (shown : flags.Shown G s) (shows : flags.shows place = true) :
    place.isIndexed = false ∧ s.Shows (place.byte G.w G.table s) := by
  unfold Flags.shows at shows
  obtain ⟨known, same⟩ := Bool.and_eq_true_iff.mp shows
  rw [beq_iff_eq] at same
  cases place with
  | accumulator | x | y =>
    rw [same] at shown
    exact ⟨rfl, shown⟩
  | cell name is8Bit offset signed =>
    rw [same] at shown
    exact ⟨rfl, shown.2⟩
  | _ =>
    rw [same] at known
    cases known

theorem Comparison.tells_of_isZeroTest {b : UInt8}
    (zero : posed.isZeroTest signed = true) (shows : s.Shows b) :
    s.Tells signed posed.op b 0 ∧ posed.r = .immediate 0 := by
  unfold isZeroTest at zero
  simp only [Bool.and_eq_true, Bool.or_eq_true, beq_iff_eq, or_assoc] at zero
  refine ⟨⟨?_, .inr zero.2⟩, zero.1⟩
  rw [UInt8.sub_zero]
  exact shows

section Comparing

variable {staged : Comparison}

/-- The left side of a comparison has gone to a register, or the flags show the outcome. -/
structure Staged (G : Ground) (posed : Comparison) (signed : Bool) (c : Context)
    (p : Comparison × Bool) (d : Context) (g : State → State) : Prop where
  op : p.1.op = posed.op
  right : p.1.r = posed.r
  context : ∃ code flags scratchInUse, d = { c with code, flags, scratchInUse }
  alike : ∀ s : State, s.Alike (g s)
  value : ∀ s, p.1.l.seen G.w G.table (g s) = posed.l.seen G.w G.table s
  register : p.2 = false → p.1.l.isAccumulator = true ∨
    p.1.l.isIndexRegister = true ∧ c.deferred = [] ∧ posed.r.isIndexed = false
  zero : p.2 = true → c.deferred = [] ∧ posed.isZeroTest signed = true ∧
    ∀ s, c.flags.Shown G s → (g s).Shows (posed.l.seen G.w G.table s)
  shown : posed.l.IsByte G → ∀ s, c.flags.Shown G s → d.flags.Shown G (g s)

theorem emits_stage (left : l.isReadable G.table = true) (low : c.high = false) :
    Emits G.w G.scope c (Comparison.stage ⟨op, l, r⟩ signed) (Staged G ⟨op, l, r⟩ signed c) := by
  have notAcc : l.isAccumulator = false := by
    cases l <;> first | rfl | cases left
  refine .get (.get (.ite (fun shows => .pure ?_) fun _ => .ite (fun loads => ?_) fun stays => ?_))
  · simp only [Bool.and_eq_true, Bool.not_not] at shows
    obtain ⟨⟨zero, none⟩, believed⟩ := shows
    refine ⟨rfl, rfl, ⟨_, _, _, rfl⟩, .refl, fun _ => rfl, nofun,
      fun _ => ⟨List.isEmpty_iff.mp none, zero, fun s shown => ?_⟩, fun _ _ => id⟩
    obtain ⟨plain, shows⟩ := shown.byte believed
    rw [Place.seen_eq_byte plain]
    exact shows
  · refine .accInUse (.check fun _ => .bind (.loadPass left) ?_)
    rintro _ d g ⟨⟨code, rfl⟩, run⟩
    rw [low] at run
    simp only [Place.inPass_false] at run
    refine .pure ⟨rfl, rfl, ⟨_, _, _, rfl⟩, fun s => ?_, fun s => ?_, fun _ => .inl rfl,
      fun zero => ?_, fun isByte s _ => ?_⟩
    · rw [Function.comp_apply, id_eq, run]
      exact ⟨rfl, rfl, rfl, rfl, rfl⟩
    · rw [Function.comp_apply, id_eq, run]
      rfl
    · simp only [Bool.and_eq_true, Bool.not_not] at zero
      refine ⟨List.isEmpty_iff.mp zero.2, zero.1, fun s _ => ?_⟩
      rw [Function.comp_apply, id_eq, run]
      exact ⟨rfl, rfl⟩
    · have plain : l.isIndexed = false := by
        cases l <;> first | rfl | exact isByte.elim
      rw [Function.comp_apply, id_eq, run, Place.seen_eq_byte plain]
      exact Flags.shown_load isByte c.flags
  · simp only [Comparison.needsLoad, notAcc, Bool.not_false, Bool.and_true, Bool.true_and,
      Bool.not_eq_true, Bool.or_eq_false_iff, Bool.not_eq_false'] at stays
    obtain ⟨⟨register, none⟩, plain⟩ := stays
    refine .pure ⟨rfl, rfl, ⟨_, _, _, rfl⟩, .refl, fun _ => rfl, fun _ =>
      .inr ⟨?_, List.isEmpty_iff.mp none, plain⟩, nofun, fun _ _ => id⟩
    cases l <;> first | rfl | (cases register; done) | cases notAcc

/-- What was put off is done while the left side waits. -/
theorem emits_settle (known : ∀ step ∈ c.deferred, step.isByteStep G.table = true)
    (low : c.high = false) (waits : staged.l.isAccumulator = true ∨ c.deferred = []) :
    Emits G.w G.scope c (staged.settle c.accInUse) fun _ d g =>
      (∃ code flags, d = { c with code, flags, deferred := [] } ∧
        (c.deferred = [] → flags = c.flags ∧ g = id)) ∧
      ∀ s, staged.l.seen G.w G.table (g s) = staged.l.seen G.w G.table s ∧
        (Deferred.performAll G.w G.table c.deferred s).Alike (g s) := by
  by_cases none : c.deferred = []
  · have flushed {b : Bool} {u : Unit} {d : Context}
        (ok : (do flush; setAccInUse c.accInUse : Gen Unit) G.scope { c with accInUse := b } =
          .ok u d) : d = { c with deferred := [] } := by
      obtain ⟨_, between, flushed, ok⟩ := bind_inv ok
      cases flush_same (c := { c with accInUse := b }) low none flushed
      cases ok
      rw [← none]
    refine .of_same fun _ d ok => ?_
    have same : d = { c with deferred := [] } := by
      unfold Comparison.settle at ok
      dsimp only at ok
      split at ok
      · exact flushed (b := true) ok
      · exact flushed (b := c.accInUse) ok
    rw [same, none]
    exact ⟨rfl, ⟨_, _, rfl, fun _ => ⟨rfl, rfl⟩⟩, fun s => ⟨rfl, .refl s⟩⟩
  · have inside := waits.resolve_right none
    unfold Comparison.settle
    rw [if_pos inside]
    refine .modify rfl (.bind (emits_flush (G := G) known) ?_)
    rintro _ d g ⟨⟨code, flags, rfl⟩, acc, run⟩
    refine .of_same fun _ _ ok => ?_
    cases ok
    refine ⟨rfl, ⟨code, flags, rfl, fun empty => absurd empty none⟩, fun s => ⟨?_, run s⟩⟩
    cases side : staged.l with
    | accumulator => exact acc s
    | _ =>
      rw [side] at inside
      cases inside

theorem emits_compareSides (low : c.high = false) (register : staged.l.isAccumulator = true ∨
      staged.l.isIndexRegister = true ∧ staged.r.isIndexed = false)
    (reached : staged.r.isReached G.table = true) :
    Emits G.w G.scope c staged.compareSides fun _ d g =>
      (∃ code scratchInUse, d = { c with code, flags := .unknown, scratchInUse }) ∧
        ∀ s, g s = s.compareWith (staged.l.seen G.w G.table s) (staged.r.seen G.w G.table s) := by
  obtain ⟨op, l, r⟩ := staged
  dsimp only at register reached ⊢
  have compares {m : Mnemonic} (straight : m.isStraight = true)
      (indexes : r.isIndexed = true → indexesX m = true) (flags : c.flags.after m r = .unknown)
      (does : ∀ (s : State) access, s.execute m access =
        s.compareWith (l.seen G.w G.table s) (s.load access)) :
      Emits G.w G.scope c (emit m r) fun _ d g =>
        (∃ code scratchInUse, d = { c with code, flags := .unknown, scratchInUse }) ∧
          ∀ s, g s = s.compareWith (l.seen G.w G.table s) (r.seen G.w G.table s) := by
    refine (Emits.emitAt straight reached indexes).mono fun _ d g ⟨⟨code, same⟩, run⟩ => ?_
    rw [flags] at same
    refine ⟨⟨code, _, same⟩, fun s => ?_⟩
    rw [run, low, Place.inPass_false, does]
    cases r <;> first | rfl | cases reached
  cases l with
  | accumulator => exact compares (m := .cmp) rfl (fun _ => rfl) rfl fun _ _ => rfl
  | x =>
    have plain := (register.resolve_left Bool.false_ne_true).2
    exact compares (m := .cpx) rfl (fun indexed => by cases plain.symm.trans indexed) rfl
      fun _ _ => rfl
  | y =>
    have plain := (register.resolve_left Bool.false_ne_true).2
    exact compares (m := .cpy) rfl (fun indexed => by cases plain.symm.trans indexed) rfl
      fun _ _ => rfl
  | _ => rcases register with isAcc | ⟨isIndex, -⟩ <;> contradiction

section

variable (known : ∀ step ∈ c.deferred, step.isByteStep G.table = true)
  (low : c.high = false)
  (left : l.isReadable G.table = true)
  (reached : r.isReached G.table = true)

include known low left reached

/-- The flags answer a comparison; its left side counts as it was, and its right side as it is. -/
theorem emits_answerArranged (other : r.isAccumulator = false) : Emits G.w G.scope c (do
        let (staged, shown) ← Comparison.stage ⟨op, l, r⟩ signed
        staged.settle c.accInUse
        if !shown then staged.compareSides
        return staged.op) fun op' d g => op' = op ∧
      (∃ code flags scratchInUse, d = { c with code, flags, scratchInUse, deferred := [] }) ∧
      (∀ s, (c.deferred = [] → (⟨op, l, r⟩ : Comparison).isZeroTest signed = true →
          c.flags.Shown G s) →
        let after := Deferred.performAll G.w G.table c.deferred s
        (g s).Tells signed op (l.seen G.w G.table s) (r.seen G.w G.table after) ∧
          after.Alike (g s)) ∧
      (l.IsByte G → ∀ s, c.flags.Shown G s → d.flags.Shown G (g s)) := by
  refine .bind (emits_stage left low) ?_
  rintro ⟨staged, shown⟩ d g ⟨rfl, rfl, ⟨code, flags, scratchInUse, rfl⟩, alike, value, register,
    zero, believed⟩
  dsimp only at value register zero believed ⊢
  have waits : staged.l.isAccumulator = true ∨ c.deferred = [] := by
    cases shown with
    | false => exact (register rfl).imp_right fun ⟨_, empty, _⟩ => empty
    | true => exact .inr (zero rfl).1
  refine .bind (emits_settle (c := { c with code, flags, scratchInUse }) known low waits) ?_
  rintro _ e h ⟨⟨others, flags', rfl, idle⟩, settled⟩
  have moved (s : State) :
      (Deferred.performAll G.w G.table c.deferred s).Alike (h (g s)) :=
    (Deferred.performAll_alike c.deferred (alike s)).trans (settled (g s)).2
  cases shown with
  | true =>
    obtain ⟨none, isZero, shows⟩ := zero rfl
    obtain ⟨rfl, rfl⟩ := idle none
    refine .pure ⟨rfl, ⟨_, _, _, rfl⟩, fun s given => ?_, believed⟩
    have told := Comparison.tells_of_isZeroTest isZero (shows s (given none isZero))
    rw [told.2]
    exact ⟨told.1, moved s⟩
  | false =>
    refine .bind (emits_compareSides
      (c := { c with code := others, flags := flags', scratchInUse, deferred := [] }) low
      ((register rfl).imp_right fun ⟨index, _, plain⟩ => ⟨index, plain⟩) reached) ?_
    rintro _ f k ⟨⟨more, inUse, rfl⟩, run⟩
    refine .pure ⟨rfl, ⟨_, _, _, rfl⟩, fun s _ => ?_, fun _ _ _ => trivial⟩
    change (k (h (g s))).Tells _ _ _ _ ∧ State.Alike _ (k (h (g s)))
    rw [run, (settled (g s)).1, value, Place.seen_alike (moved s) other]
    exact ⟨State.tells_compareWith .., (moved s).trans ⟨rfl, rfl, rfl, rfl, rfl⟩⟩

/-- A right side that is in no register stays where it is. -/
theorem emits_answerInOrder (outside : r.isRegister = false) :
    Emits G.w G.scope c (Comparison.answer ⟨op, l, r⟩ signed) fun op' d g => op' = op ∧
      (∃ code flags scratchInUse, d = { c with code, flags, scratchInUse, deferred := [] }) ∧
      (∀ s, (c.deferred = [] → (⟨op, l, r⟩ : Comparison).isZeroTest signed = true →
          c.flags.Shown G s) →
        let after := Deferred.performAll G.w G.table c.deferred s
        (g s).Tells signed op (l.seen G.w G.table s) (r.seen G.w G.table after) ∧
          after.Alike (g s)) ∧
      (l.IsByte G → ∀ s, c.flags.Shown G s → d.flags.Shown G (g s)) := by
  refine .accInUse ?_
  unfold Comparison.arrange
  dsimp only
  rw [outside, if_neg Bool.false_ne_true]
  exact emits_answerArranged known low left reached (Place.isAccumulator_of_isRegister outside)

end

/-- The flags answer a comparison of two bytes, which may have been swapped. -/
structure Answered (G : Ground) (op : Op) (l r : Place) (c : Context) (op' : Op) (d : Context)
    (g : State → State) : Prop where
  compares : op'.isCompare = true
  context : ∃ code flags scratchInUse, d = { c with code, flags, scratchInUse, deferred := [] }
  answers : ∀ s, (c.deferred = [] → c.flags.Shown G s) →
    let after := Deferred.performAll G.w G.table c.deferred s
    (g s).answersBy false op' =
        op.compares (l.seen G.w G.table (if l.isMemory && r.isRegister then after else s))
          (r.seen G.w G.table (if r.isMemory then after else s)) ∧
      Untouched G.w after (g s)
  shown : l.IsByte G → r.IsByte G → ∀ s, c.flags.Shown G s → d.flags.Shown G (g s)

/--
The flags are made to answer. A side in memory counts as the steps leave it if it is on the right,
and also if the right side is in a register, since then the sides are swapped.
-/
theorem emits_answer (known : ∀ step ∈ c.deferred, step.isByteStep G.table = true)
    (spared : l.isRegister = true → r.isRegister = true → ∀ s,
      (Deferred.performAll G.w G.table c.deferred s).read G.scratch = s.read G.scratch)
    (compares : op.isCompare = true) (low : c.high = false) (left : l.isReadable G.table = true)
    (right : r.isReadable G.table = true) :
    Emits G.w G.scope c (Comparison.answer ⟨op, l, r⟩ false) (Answered G op l r c) := by
  have addressed {p : Place} (readable : p.isReadable G.table = true)
      (outside : p.isRegister = false) : p.isReached G.table = true ∧ p.isAccumulator = false ∧
        ∀ s t, p.seen G.w G.table t = p.seen G.w G.table (if p.isMemory then t else s) := by
    cases p with
    | immediate | scratch | cell | indexedX | indexedY => exact ⟨readable, rfl, fun _ _ => rfl⟩
    | x | y => cases outside
    | _ => cases readable
  have index {p : Place} (readable : p.isReadable G.table = true) (inside : p.isRegister = true) :
      p.isMemory = false ∧ p.isAccumulator = false ∧ ∀ s t, Untouched G.w s t →
        p.seen G.w G.table t = p.seen G.w G.table s := by
    cases p with
    | x => exact ⟨rfl, rfl, fun _ _ same => same.x⟩
    | y => exact ⟨rfl, rfl, fun _ _ same => same.y⟩
    | _ => first | (cases inside; done) | cases readable
  cases registerR : r.isRegister with
  | false =>
    obtain ⟨reached, -, late⟩ := addressed right registerR
    refine (emits_answerInOrder known low left reached registerR).mono ?_
    rintro _ d g ⟨rfl, context, tells, shown⟩
    refine ⟨compares, context, fun s given => ?_, fun isByte _ => shown isByte⟩
    obtain ⟨told, moved⟩ := tells s fun none _ => given none
    dsimp only
    rw [registerR, Bool.and_false, if_neg Bool.false_ne_true, ← late]
    exact ⟨told.answers compares, .of_alike moved⟩
  | true =>
    obtain ⟨outsideR, notAccR, -⟩ := index right registerR
    refine .accInUse ?_
    unfold Comparison.arrange
    dsimp only
    rw [registerR, if_pos rfl, notAccR, Bool.or_false]
    cases registerL : l.isRegister with
    | false =>
      obtain ⟨reached, notAcc, late⟩ := addressed left registerL
      rw [Bool.not_false, if_pos rfl, Comparison.swap, registerL, if_neg Bool.false_ne_true]
      refine (emits_answerArranged known low right reached notAcc).mono ?_
      rintro _ d g ⟨rfl, context, tells, shown⟩
      have compares := isCompare_swapped compares
      refine ⟨compares, context, fun s given => ?_, fun _ isByte => shown isByte⟩
      obtain ⟨told, moved⟩ := tells s fun none _ => given none
      dsimp only
      rw [registerR, outsideR, Bool.and_true, if_neg Bool.false_ne_true, ← late, ← compares_swapped]
      exact ⟨told.answers compares, .of_alike moved⟩
    | true =>
      obtain ⟨outsideL, -, keptL⟩ := index left registerL
      rw [Bool.not_true, if_neg Bool.false_ne_true, registerR, if_pos rfl]
      refine .bind (P := fun arranged d g => arranged = ⟨op, l, .scratch r.signed⟩ ∧
        Spilled G r c (.scratch r.signed) d g) (.bind (.spill registerR) ?_) ?_
      · rintro _ d g spilled
        cases spilled.scratch
        exact .pure ⟨rfl, spilled⟩
      rintro _ d g ⟨rfl, -, -, ⟨code, flags, rfl⟩, wrote, believed⟩
      refine (emits_answerArranged (c := { c with code, flags, scratchInUse := true }) known low
        left rfl rfl).mono ?_
      rintro _ e h ⟨rfl, ⟨others, flags', inUse, rfl⟩, tells, shown⟩
      refine ⟨compares, ⟨_, _, _, rfl⟩, fun s _ => ?_,
        fun isByte _ s given => shown isByte _ (believed s given)⟩
      have aside : Untouched G.w s (g s) := by
        rw [wrote]
        exact .scratched s _
      obtain ⟨told, moved⟩ := tells (g s) nofun
      have spilled : (Place.scratch r.signed).seen G.w G.table
          (Deferred.performAll G.w G.table c.deferred (g s)) = r.seen G.w G.table s := by
        refine (spared registerL registerR (g s)).trans ?_
        rw [wrote]
        refine (State.read_write ..).trans ((if_pos rfl).trans ?_)
        cases r <;> first | rfl | cases registerR
      rw [spilled, keptL s (g s) aside] at told
      dsimp only
      rw [outsideL, outsideR, Bool.false_and, if_neg Bool.false_ne_true]
      exact ⟨told.answers compares, (aside.performAll c.deferred).trans (.of_alike moved)⟩

end Comparing

/-- The code of a condition jumps to a label from some states, and goes on from the others. -/
structure Decides (G : Ground) (L : Listing) (label : String) (jumps : State → Bool)
    (c d : Context) : Prop where
  lays : Lays [] c d
  taken : L.Holds d → ∀ s, jumps s = true →
    Escapes G.w L c label (Known G s c.flags) (Known G s .unknown)
  passed : L.Holds d → ∀ s, jumps s = false →
    Reaches G.w L c d (Known G s c.flags) (Known G s d.flags)

/--
The context of a statement or condition that starts: nothing is in use and nothing is put off.
-/
structure Ready (L : Listing) (c : Context) : Prop where
  fresh : L.Fresh c
  free : c.accInUse = false
  none : c.deferred = []

theorem Ready.after {own : List String} (ready : Ready L c)
    (lays : Lays own c d) : Ready L d where
  fresh := ready.fresh.grows lays.grows
  free := lays.acc.trans ready.free
  none := lays.deferred.trans ready.none

theorem Ready.of_eq (ready : Ready L c) (code : d.code = c.code)
    (acc : d.accInUse = c.accInUse) (deferred : d.deferred = c.deferred) : Ready L d :=
  ⟨ready.fresh.of_eq code, acc.trans ready.free, deferred.trans ready.none⟩

section Deciding

variable {answer : State → Bool}

/-- The flags are made to answer a comparison, and branches go by what they answer. -/
theorem branched_of_answers {m : Gen Op} {signed : Bool}
    {Q : Report Op}
    (answers : Emits w scope c m fun op d g => op.isCompare = true ∧ Q op d g)
    (ok : (m >>= fun op => branchOn (if negate then negated op else op) signed label) scope c =
      .ok u d) :
    ∃ op e g, Q op e g ∧ (∃ code : List Instruction, e.code = c.code ++ code.map .instruction) ∧
      (∀ L : Listing, L.Holds e → ∀ s, Steps w L.lines ⟨L.ahead c, s⟩ ⟨L.ahead e, g s⟩) ∧
      ∀ L : Listing, L.Fresh e →
        Branched w L label (fun s => s.answersBy signed op != negate) e d := by
  obtain ⟨op, e, answered, ok⟩ := bind_inv ok
  obtain ⟨code, added, straight, compares, holds⟩ := answers op e answered
  refine ⟨op, e, _, holds, ⟨code, added⟩, fun L laid s => ?_, fun L fresh => ?_⟩
  · rw [Listing.ahead_append laid added]
    exact .straight straight _ s
  · have asks : (if negate = true then negated op else op).isCompare = true := by
      split
      · exact isCompare_negated compares
      · exact compares
    have branched : Branched w L label _ e d := branched_branchOn asks fresh ok
    refine branched.congr fun s => ?_
    cases negate with
    | false => simp
    | true => simp [State.answersBy_negated _ _ compares]

end Deciding

section Operands

variable {lhs rhs : Expr}
variable {left right : Operand}

theorem Stands.isReadable (stands : Stands G lhs l) : l.isReadable G.table = true := by
  have isByte := stands.isByte
  have notAcc := stands.notAcc
  cases l with
  | accumulator => cases notAcc
  | indexedX | indexedY | nothing | label => exact isByte.elim
  | _ => rfl

/-- The place of an operand still holds its byte. -/
theorem Stands.seen_eq {t : State} (stands : Stands G lhs l) (near : Near G s t) :
    l.seen G.w G.table t = lowByte (lhs.asNumber G.table (bytesOf G.w G.table s)) := by
  have isByte := stands.isByte
  have plain : l.isIndexed = false := by
    cases l <;> first | rfl | exact isByte.elim
  rw [Place.seen_eq_byte plain, near.byte_eq isByte stands.notAcc stands.notScratch, stands.value]

def comparesIn (G : Ground) (op : Op) (lhs rhs : Expr) (s : State) : Bool :=
  op.compares (lowByte (lhs.asNumber G.table (bytesOf G.w G.table s)))
    (lowByte (rhs.asNumber G.table (bytesOf G.w G.table s)))

/-- The bytes of two operands are compared, and branches go by how they compare. -/
theorem decides_emit (left : Stands G lhs l) (right : Stands G rhs r)
    (compares : op.isCompare = true) (low : c.high = false) (ready : Ready L c)
    (ok : Comparison.emit ⟨op, l, r⟩ label negate G.scope c = .ok u d) :
    Decides G L label (fun s => comparesIn G op lhs rhs s != negate) c d := by
  have unsigned : (l.signed || r.signed) = false := by rw [left.unsigned, right.unsigned]; rfl
  have none (s : State) : Deferred.performAll G.w G.table c.deferred s = s := by
    rw [ready.none]
    rfl
  have answers : Emits G.w G.scope c (Comparison.answer ⟨op, l, r⟩ (l.signed || r.signed))
      fun op' d g => op'.isCompare = true ∧ Answered G op l r c op' d g := by
    rw [unsigned]
    refine (emits_answer (fun step inside => ?_) (fun _ _ s => ?_) compares low left.isReadable
      right.isReadable).mono fun _ _ _ answered => ⟨answered.compares, answered⟩
    · rw [ready.none] at inside
      cases inside
    · rw [none]
  obtain ⟨op', e, g, answered, ⟨code, added⟩, steps, branched⟩ := branched_of_answers answers ok
  obtain ⟨_, _, _, context⟩ := answered.context
  rw [← ready.none] at context
  have straight : Lays [] c e := by
    refine .straight added ?_ ?_ <;> rw [context]
    exact ⟨rfl, rfl, rfl, rfl, rfl, rfl⟩
  have branched := branched L (ready.after straight).fresh
  have replies (s t : State) (known : Known G s c.flags t) :
      ((g t).answersBy (l.signed || r.signed) op' != negate) =
        (comparesIn G op lhs rhs s != negate) ∧ Known G s e.flags (g t) := by
    obtain ⟨answer, aside⟩ := answered.answers t fun _ => known.shown
    simp only [none, ite_self] at answer aside
    rw [unsigned, answer, left.seen_eq known.near, right.seen_eq known.near]
    exact ⟨rfl, known.near.untouched_of aside,
      answered.shown left.isByte right.isByte t known.shown⟩
  refine ⟨straight.trans branched.lays, fun laid s jumps => ?_, fun laid s stays => ?_⟩
  · intro t known
    obtain ⟨reply, after⟩ := replies s t known
    obtain ⟨line, rest, others, jumps⟩ := (branched.runs laid).taken (g t) (reply.trans jumps)
    exact ⟨line, rest, g t, (steps L (branched.lays.holds laid) t).trans others, jumps, after.near,
      trivial⟩
  · intro t known
    obtain ⟨reply, after⟩ := replies s t known
    have others := (branched.runs laid).passed (g t) (reply.trans stays)
    refine ⟨g t, (steps L (branched.lays.holds laid) t).trans others, after.near, ?_⟩
    rcases branched.flags with same | unknown
    · rw [same]
      exact after.shown
    · rw [unknown]
      trivial

theorem decides_compareValues (left : Stands G lhs l) (right : Stands G rhs r)
    (compares : op.isCompare = true)
    (varies : constant? G.table lhs = none ∨ constant? G.table rhs = none)
    (low : c.high = false) (ready : Ready L c)
    (ok : compareValues op l r label negate G.scope c = .ok u d) :
    Decides G L label (fun s => comparesIn G op lhs rhs s != negate) c d := by
  unfold compareValues at ok
  replace ok := check_eq_ok ok
  split at ok
  · next a b =>
    obtain ⟨m, fixedL⟩ := left.fixed a rfl
    obtain ⟨n, fixedR⟩ := right.fixed b rfl
    rcases varies with varies | varies
    · cases fixedL.symm.trans varies
    · cases fixedR.symm.trans varies
  · have decides := decides_emit right left (isCompare_swapped compares) low ready ok
    simpa only [comparesIn, compares_swapped] using decides
  · exact decides_emit left right compares low ready ok

/-- Operands of a comparison are found where they are. -/
theorem bothValues_operands {values : Place × Place} (isLeft : lhs.isOperand G.table = true)
    (isRight : rhs.isOperand G.table = true) (readsL : ∀ p ∈ lhs.cells G.table, G.cells p.1 p.2)
    (readsR : ∀ p ∈ rhs.cells G.table, G.cells p.1 p.2) (valueL : left.value = (lower lhs).value)
    (valueR : right.value = (lower rhs).value) (low : c.high = false)
    (ok : bothValues left right G.scope c = .ok values d) :
    d = c ∧ Stands G lhs values.1 ∧ Stands G rhs values.2 := by
  refine bothValues_same (fun place d ok => ?_) (fun place d ok => ?_) ok
  · rw [valueL] at ok
    obtain ⟨_, -, -, same, -, stands⟩ := emits_operand isLeft readsL low place d ok
    exact ⟨same, stands.notAcc, stands⟩
  · rw [valueR] at ok
    obtain ⟨_, -, -, same, -, stands⟩ := emits_operand isRight readsR low place d ok
    exact ⟨same, stands⟩

/-- The operands are computed one after the other, and then compared. -/
theorem compare_eq_ok (ok : compare op left right label negate scope c = .ok u d) :
    ∃ values between e, bothValues left right scope { c with high := false } = .ok values between ∧
      compareValues op values.1 values.2 label negate scope between = .ok u e ∧
        d = { e with high := c.high } := by
  obtain ⟨wide, _, ⟨⟩, ok⟩ := bind_inv ok
  replace ok := check_eq_ok ok
  obtain ⟨wide, _, ⟨⟩, ok⟩ := bind_inv ok
  obtain ⟨e, inner, same⟩ := withHigh_eq_ok (check_eq_ok ok)
  obtain ⟨values, between, read, inner⟩ := bind_inv inner
  exact ⟨values, between, e, read, inner, same⟩

theorem decides_compare (compares : op.isCompare = true) (isLeft : lhs.isOperand G.table = true)
    (isRight : rhs.isOperand G.table = true)
    (reads : ∀ p ∈ lhs.cells G.table ++ rhs.cells G.table, G.cells p.1 p.2)
    (varies : constant? G.table lhs = none ∨ constant? G.table rhs = none) (ready : Ready L c)
    (ok : compare op (lower lhs).toOperand (lower rhs).toOperand label negate G.scope c = .ok u d) :
    Decides G L label (fun s => comparesIn G op lhs rhs s != negate) c d := by
  obtain ⟨⟨l, r⟩, between, e, values, inner, rfl⟩ := compare_eq_ok ok
  obtain ⟨rfl, left, right⟩ := bothValues_operands isLeft isRight
    (fun p inside => reads p (List.mem_append_left _ inside))
    (fun p inside => reads p (List.mem_append_right _ inside)) rfl rfl rfl values
  have readyHere : Ready L { c with high := false } := ready.of_eq rfl rfl rfl
  have decides : Decides G L label _ { c with high := false } e :=
    decides_compareValues left right compares varies rfl readyHere inner
  have lays := decides.lays
  exact ⟨⟨lays.toLabelled.congr ⟨rfl, rfl, rfl, rfl⟩ ⟨rfl, rfl, rfl, rfl⟩, rfl, lays.acc,
    lays.exits, lays.deferred⟩, decides.taken, decides.passed⟩

end Operands

end Backend6502.Lowering
