import Backend6502.Proofs.Targets

/-!
# Repairs come to an end

The branches that a repair brings in stand right before their labels, and no later repair comes
between them. They stay within reach, except for the first branch of a repaired `above`: if
assembler text and another line with the same label stand before it, it may have to be repaired once
more. `Pending` bounds the repairs that are left by such groups of lines, so that `Stream.repair`
ends with every branch within reach of its label.
-/

namespace Backend6502.Code

open Cpu (Mnemonic)

def Line.branches : Line → Bool
  | .instruction i => i.op.isBranch
  | _ => false

/-- What stands after the first branch of a repaired `atMost`. -/
structure Leg where
  signed : Bool
  past : String
  label : String
  target : String

/-- The second branch, and the jump that the first one goes to. -/
def Leg.lines (leg : Leg) : List Line :=
  [Site.guarded (Test.notLess.branch leg.signed) leg.past, .label leg.label,
   .instruction (.jump leg.target), .label leg.past]

/-- Lines that a repair leaves behind, and how often a branch among them can be repaired again. -/
inductive Group : Nat → List Line → Prop where
  | lone (m : Mnemonic) (past target : String) :
      Group 0 [Site.guarded m past, .instruction (.jump target), .label past]
  /--
  A branch before may go to the same label as the first branch here. Then both are repaired
  together, and what stood after the first branch stands after the new lines.
  -/
  | atMost (leg : Leg) (legs : List Leg) :
      Group 0 (Site.guarded .beq leg.label :: (leg :: legs).flatMap Leg.lines)
  | above (signed : Bool) (past target : String) :
      Group 1 [Site.guarded (Test.less.branch signed) past, Site.guarded .beq past,
        .instruction (.jump target), .label past]

/-- At most so many repairs are left to be made. -/
inductive Pending : Nat → List Line → Prop where
  | nil : Pending 0 []
  | plain {n : Nat} {line : Line} {rest : List Line} (other : line.branches = false)
      (others : Pending n rest) : Pending n (line :: rest)
  /-- A branch that no repair has brought in. -/
  | branch {n : Nat} (i : Instruction) {rest : List Line} (others : Pending n rest) :
      Pending (n + 2) (.instruction i :: rest)
  | group {k n : Nat} {lines rest : List Line} (group : Group k lines) (others : Pending n rest) :
      Pending (k + n) (lines ++ rest)

section Near

variable {name : String} {down up distance : Int64} {line second third : Line}
  {before after : List Line}

theorem seek_cons (found : seek name down up (line :: after) before = some distance) :
    distance = down ∨ distance = -up ∨
      seek name (down + line.size) (up + (before.head?.map Line.size).getD 0) after before.tail =
        some distance := by
  unfold seek at found
  cases before with
  | nil =>
    split at found
    · exact .inl (Option.some.inj found).symm
    · refine .inr (.inr ?_)
      simpa using found
  | cons above before =>
    split at found
    · exact .inl (Option.some.inj found).symm
    · simp only at found
      split at found
      · exact .inr (.inl (Option.some.inj found).symm)
      · exact .inr (.inr found)

theorem seek_label (found : seek name down up (.label name :: after) before = some distance) :
    distance = down := by
  unfold seek at found
  simp only [Line.isLabel, beq_self_eq_true, if_true, Option.some.injEq] at found
  exact found.symm

theorem near_of_second {i : Instruction} (size : i.size = 2)
    (inner : line.size = 2 ∨ line.size = 3) :
    ¬ Spot.Far ⟨before, i, line :: .label i.operand :: after⟩ := by
  rintro ⟨distance, found, far⟩
  change seek i.operand 0 i.size _ before = some distance at found
  rcases seek_cons found with rfl | rfl | found
  · cases far
  · rw [size] at far
    cases far
  · rw [seek_label found] at far
    rcases inner with inner | inner <;> rw [inner] at far <;> cases far

/-- The label is two lines further down, and the line above is not a long one. -/
theorem near_of_third {i : Instruction} (size : i.size = 2) (first : line.size = 0)
    (inner : second.size = 3)
    (above : (before.head?.map Line.size).getD 0 = 0 ∨ (before.head?.map Line.size).getD 0 = 2) :
    ¬ Spot.Far ⟨before, i, line :: second :: .label i.operand :: after⟩ := by
  rintro ⟨distance, found, far⟩
  change seek i.operand 0 i.size _ before = some distance at found
  rcases seek_cons found with rfl | rfl | found
  · cases far
  · rw [size] at far
    cases far
  · rcases seek_cons found with rfl | rfl | found
    · rw [first] at far
      cases far
    · rw [size] at far
      rcases above with above | above <;> rw [above] at far <;> cases far
    · rw [seek_label found, first, inner] at far
      cases far

end Near

/-- The legs of a repaired `atMost` stay within reach. -/
theorem Leg.near {legs : List Leg} {upper inner above rest : List Line} {i : Instruction}
    (cut : legs.flatMap Leg.lines = upper ++ .instruction i :: inner)
    (branches : i.op.isBranch = true)
    (short : (above.head?.map Line.size).getD 0 = 0 ∨ (above.head?.map Line.size).getD 0 = 2) :
    ¬ Spot.Far ⟨upper.reverse ++ above, i, inner ++ rest⟩ := by
  induction legs generalizing upper above with
  | nil => simp at cut
  | cons leg legs ih =>
    rw [List.flatMap_cons, Leg.lines, Site.guarded] at cut
    rcases upper with _ | ⟨a, _ | ⟨b, _ | ⟨c, _ | ⟨d, upper⟩⟩⟩⟩
    · obtain ⟨same, rfl⟩ := List.cons.inj cut
      cases same
      exact near_of_third rfl rfl rfl short
    · simp at cut
    · simp only [List.nil_append, List.cons_append, List.cons.injEq, Line.instruction.injEq] at cut
      obtain ⟨-, -, rfl, -⟩ := cut
      cases branches
    · simp at cut
    · simp only [List.nil_append, List.cons_append, List.cons.injEq] at cut
      obtain ⟨rfl, rfl, rfl, rfl, cut⟩ := cut
      have near : ¬ Spot.Far
          ⟨upper.reverse ++ (.label leg.past :: .instruction (.jump leg.target) ::
            .label leg.label :: Site.guarded (Test.notLess.branch leg.signed) leg.past :: above), i,
            inner ++ rest⟩ := ih cut (.inl rfl)
      simpa [Site.guarded] using near

namespace Group

variable {k : Nat} {lines : List Line}

theorem pending (group : Group k lines) : Pending k lines := by
  have alone := Pending.group group .nil
  rwa [List.append_nil] at alone

theorem ends (group : Group k lines) : ∃ body past, lines = body ++ [.label past] := by
  cases group with
  | lone m past target => exact ⟨[_, _], past, rfl⟩
  | above signed past target => exact ⟨[_, _, _], past, rfl⟩
  | atMost leg legs =>
    rcases List.eq_nil_or_concat (leg :: legs) with none | ⟨others, last, all⟩
    · cases none
    · refine ⟨Site.guarded .beq leg.label :: (others.flatMap Leg.lines ++ last.lines.dropLast),
        last.past, ?_⟩
      rw [all]
      simp [Leg.lines]

theorem split (group : Group k lines) {upper inner above rest : List Line} {i : Instruction}
    (cut : lines = upper ++ .instruction i :: inner) (branches : i.op.isBranch = true)
    (far : Spot.Far ⟨upper.reverse ++ above, i, inner ++ rest⟩) :
    ∃ u v, Pending u upper ∧ Pending v inner ∧ u + v + 1 ≤ k := by
  cases group with
  | lone m past target =>
    rcases upper with _ | ⟨a, _ | ⟨b, _ | ⟨c, upper⟩⟩⟩
    · cases cut
      exact absurd far (near_of_second rfl (.inr rfl))
    · cases cut
      cases branches
    · cases cut
    · simp at cut
  | atMost leg legs =>
    cases upper with
    | nil =>
      obtain ⟨same, rfl⟩ := List.cons.inj cut
      cases same
      exact absurd far (near_of_second rfl (.inl rfl))
    | cons first upper =>
      obtain ⟨rfl, further⟩ := List.cons.inj cut
      rw [List.reverse_cons, List.append_assoc] at far
      exact absurd far (Leg.near further branches (.inr rfl))
  | above signed past target =>
    rcases upper with _ | ⟨a, _ | ⟨b, _ | ⟨c, _ | ⟨d, upper⟩⟩⟩⟩
    · cases cut
      exact ⟨0, 0, .nil, (Group.lone .beq past target).pending, Nat.le_refl 1⟩
    · cases cut
      exact absurd far (near_of_second rfl (.inr rfl))
    · cases cut
      cases branches
    · cases cut
    · simp at cut

end Group

namespace Pending

variable {n : Nat} {upper gap : List Line} {i : Instruction}

theorem append {m : Nat} {lower : List Line} (first : Pending m upper) (second : Pending n lower) :
    Pending (m + n) (upper ++ lower) := by
  induction first with
  | nil =>
    rw [Nat.zero_add]
    exact second
  | plain other _ ih => exact .plain other ih
  | @branch k i _ _ ih =>
    rw [Nat.add_right_comm k 2 n]
    exact .branch i ih
  | group group _ ih =>
    rw [Nat.add_assoc, List.append_assoc]
    exact .group group ih

/-- A branch out of reach is one of the repairs that are left. -/
theorem split {lines below above : List Line} (pending : Pending n lines)
    (cut : lines = upper ++ .instruction i :: below) (branches : i.op.isBranch = true)
    (far : Spot.Far ⟨upper.reverse ++ above, i, below⟩) :
    ∃ u v, Pending u upper ∧ Pending v below ∧ u + v + 1 ≤ n := by
  induction pending generalizing upper above with
  | nil => simp at cut
  | @plain n line rest other others ih =>
    cases upper with
    | nil =>
      cases cut
      change i.op.isBranch = false at other
      rw [branches] at other
      cases other
    | cons first upper =>
      obtain ⟨rfl, further⟩ := List.cons.inj cut
      rw [List.reverse_cons, List.append_assoc] at far
      obtain ⟨u, v, up, down, fewer⟩ := ih further far
      exact ⟨u, v, .plain other up, down, fewer⟩
  | @branch n f rest others ih =>
    cases upper with
    | nil =>
      cases cut
      exact ⟨0, n, .nil, others, by omega⟩
    | cons first upper =>
      obtain ⟨rfl, further⟩ := List.cons.inj cut
      rw [List.reverse_cons, List.append_assoc] at far
      obtain ⟨u, v, up, down, fewer⟩ := ih further far
      exact ⟨u + 2, v, .branch f up, down, by omega⟩
  | @group k n lines rest group others ih =>
    rcases cut_append cut with ⟨upper, rfl, further⟩ | ⟨inner, inside, rfl⟩
    · rw [List.reverse_append, List.append_assoc] at far
      obtain ⟨u, v, up, down, fewer⟩ := ih further far
      exact ⟨k + u, v, .group group up, down, by omega⟩
    · obtain ⟨u, v, up, down, fewer⟩ := group.split inside branches far
      exact ⟨u, v + n, up, down.append others, by omega⟩

/-- A branch before a label-free rest belongs to no group. -/
theorem init {lines : List Line} (pending : Pending n lines)
    (cut : lines = upper ++ .instruction i :: gap) (branches : i.op.isBranch = true)
    (unlabelled : labelNames gap = []) : ∃ m, m + 2 ≤ n ∧ Pending m upper := by
  induction pending generalizing upper with
  | nil => simp at cut
  | @plain n line rest other others ih =>
    cases upper with
    | nil =>
      cases cut
      change i.op.isBranch = false at other
      rw [branches] at other
      cases other
    | cons first upper =>
      obtain ⟨rfl, further⟩ := List.cons.inj cut
      obtain ⟨m, fewer, pending⟩ := ih further
      exact ⟨m, fewer, .plain other pending⟩
  | @branch n f rest others ih =>
    cases upper with
    | nil => exact ⟨0, by omega, .nil⟩
    | cons first upper =>
      obtain ⟨rfl, further⟩ := List.cons.inj cut
      obtain ⟨m, fewer, pending⟩ := ih further
      exact ⟨m + 2, by omega, .branch f pending⟩
  | @group k n lines rest group others ih =>
    rcases cut_append cut with ⟨upper, rfl, further⟩ | ⟨inner, inside, rfl⟩
    · obtain ⟨m, fewer, pending⟩ := ih further
      exact ⟨k + m, by omega, .group group pending⟩
    · -- The label at the end of the group would stand after the branch.
      obtain ⟨body, past, ends⟩ := group.ends
      have inner_nil : labelNames inner = [] := by
        rw [labelNames_append] at unlabelled
        exact (List.append_eq_nil_iff.mp unlabelled).1
      rcases List.eq_nil_or_concat inner with rfl | ⟨inner, last, rfl⟩
      · rw [ends] at inside
        obtain ⟨-, same⟩ := List.append_inj' inside rfl
        cases same
      · rw [ends, List.concat_eq_append, ← List.cons_append, ← List.append_assoc] at inside
        obtain ⟨-, same⟩ := List.append_inj' inside rfl
        cases same
        simp at inner_nil

/--
The lines after a branch to the same label, if it is equality that they decide. Groups stay whole: a
first branch that is taken away gets another one in its place.
-/
theorem joined {lines rest : List Line} (leg : Leg) (pending : Pending n lines)
    (cut : lines = gap ++ .instruction i :: rest) (quiet : ∀ line ∈ gap, line.isSilent = true)
    (op : i.op = .known .beq) :
    ∃ m, m ≤ n ∧ Pending m (Site.guarded .beq leg.label :: (leg.lines ++ rest)) := by
  have alone := Group.atMost leg []
  rw [List.flatMap_singleton] at alone
  induction pending generalizing gap with
  | nil => simp at cut
  | @plain n line others' other others ih =>
    cases gap with
    | nil =>
      cases cut
      rw [Line.branches, op] at other
      cases other
    | cons first gap =>
      obtain ⟨rfl, further⟩ := List.cons.inj cut
      exact ih further (fun line inside => quiet line (List.mem_cons_of_mem _ inside))
  | @branch n f others' others ih =>
    cases gap with
    | nil =>
      obtain ⟨-, rfl⟩ := List.cons.inj cut
      exact ⟨0 + n, by omega, .group alone others⟩
    | cons first gap =>
      obtain ⟨rfl, -⟩ := List.cons.inj cut
      cases quiet _ List.mem_cons_self
  | @group k n lines others' group others ih =>
    -- The first line of a group is a branch.
    have start : gap = [] := by
      cases gap with
      | nil => rfl
      | cons first gap =>
        cases group <;> obtain ⟨rfl, -⟩ := List.cons.inj cut <;>
          cases quiet _ List.mem_cons_self
    subst start
    cases group with
    | lone m past target =>
      obtain ⟨-, rfl⟩ := List.cons.inj cut
      exact ⟨0 + n, by omega, .group alone (.plain rfl (.plain rfl others))⟩
    | atMost first legs =>
      obtain ⟨-, rfl⟩ := List.cons.inj cut
      refine ⟨0 + n, by omega, ?_⟩
      have longer := Pending.group (.atMost leg (first :: legs)) others
      simpa using longer
    | above signed past target =>
      obtain ⟨same, -⟩ := List.cons.inj cut
      cases same
      cases signed <;> cases op

end Pending

namespace Site

theorem group_lines (site : Site) (number : Nat) :
    Group (if site.decision = .above then 1 else 0) (site.lines number) := by
  unfold lines
  cases site.decision with
  | single test => exact .lone _ _ _
  | atMost => exact .atMost ⟨site.signed, pastLabel number, jumpLabel number, site.target⟩ []
  | above => exact .above _ _ _

end Site

/-- A repair leaves fewer of them to be made. -/
theorem Pending.repaired {n : Nat} {spot : Spot} {site : Site} (pending : Pending n spot.lines)
    (found : Site.ofBranch? spot = some site) (branches : spot.instruction.op.isBranch = true)
    (far : spot.Far) (number : Nat) :
    ∃ m, m < n ∧ Pending m (site.before.reverse ++ (site.lines number ++ site.after)) := by
  have all : spot = ⟨spot.before.reverse.reverse ++ [], spot.instruction, spot.after⟩ := by simp
  rw [all] at far
  obtain ⟨u, v, up, down, fewer⟩ := pending.split rfl branches far
  have group := site.group_lines number
  obtain ⟨_, _, -, -, covers⟩ := Site.foundAt_of_ofBranch? found
  cases covers with
  | alone test decision before after =>
    rw [decision] at group
    rw [before, after]
    exact ⟨_, by simp; omega, up.append (.group group down)⟩
  | below gap i decision quiet op before after =>
    obtain ⟨m, less, joined⟩ :=
      down.joined ⟨site.signed, Site.pastLabel number, Site.jumpLabel number, site.target⟩
        after quiet op
    refine ⟨u + m, by omega, ?_⟩
    rw [before]
    refine up.append ?_
    rw [Site.lines, decision]
    exact joined
  | above gap i decision quiet other before after =>
    have cut : spot.before.reverse = site.before.reverse ++ .instruction i :: gap.reverse := by
      simp [before]
    have unlabelled : labelNames gap.reverse = [] :=
      labelNames_of_silent fun line inside => quiet line (List.mem_reverse.mp inside)
    obtain ⟨m, less, above⟩ := up.init cut other unlabelled
    rw [after]
    refine ⟨_, ?_, above.append (.group group down)⟩
    split <;> omega

/-- No branch has been repaired yet. -/
theorem Pending.initial (lines : List Line) :
    Pending (2 * (lines.filterMap Line.instruction?).countP (·.op.isBranch)) lines := by
  induction lines with
  | nil => exact .nil
  | cons line lines ih =>
    cases line with
    | instruction i =>
      change Pending (2 * List.countP _ (i :: _)) _
      rw [List.countP_cons]
      cases branches : i.op.isBranch with
      | true => exact .branch i ih
      | false => exact .plain branches ih
    | _ => exact .plain rfl ih

namespace Stream

variable {s t : Stream}

theorem Rounds.le_pending {n m : Nat} (rounds : Rounds n s t) (pending : Pending m s.lines) :
    n ≤ m := by
  induction rounds generalizing m with
  | none => exact Nat.zero_le m
  | @next n s t spot site far decided _ ih =>
    obtain ⟨shape, branches, out⟩ := far_of_firstFar? far
    rw [← List.nil_append s.lines, ← List.reverse_nil, ← shape] at pending
    obtain ⟨k, fewer, pending⟩ := pending.repaired decided branches out (s.fixes + 1)
    rw [← lines_repairSite] at pending
    exact Nat.lt_of_le_of_lt (ih pending) fewer

/-- With no more repairs left than may be made, all that are needed are made. -/
theorem rounds_of_repair (done : s.repair = (t, none)) :
    ∃ n, Rounds n s t ∧ n ≤ 2 * s.branchCount ∧ firstFar? t.name [] t.lines = .ok none := by
  obtain ⟨n, u, rounds, ⟨same, last⟩ | ⟨_, same, -⟩⟩ := exists_rounds (2 * s.branchCount + 1) s
  · cases same.symm.trans done
    have fewer : n ≤ 2 * s.branchCount := rounds.le_pending (Pending.initial s.lines)
    exact ⟨n, rounds, fewer, last.resolve_left fun all => by omega⟩
  · cases same.symm.trans done

/-- After the repairs every branch is within reach of its label. -/
theorem inRange_of_repair (done : s.repair = (t, none)) {upper below : List Line} {i : Instruction}
    (cut : t.lines = upper ++ .instruction i :: below) (branches : i.op.isBranch = true) :
    ∃ distance, Spot.distance? ⟨upper.reverse, i, below⟩ = some distance ∧
      inRange distance = true := by
  obtain ⟨-, -, -, near⟩ := rounds_of_repair done
  rw [cut] at near
  exact inRange_of_firstFar?_none near branches

end Stream

end Backend6502.Code
