import Backend6502.Proofs.AddressedNames
import Backend6502.Proofs.Placement
import Backend6502.Proofs.RepairEnds

/-!
# Displacements and repairs of branches

The distance that the branch repair measures, outwards from a branch and line by line, is the
displacement that the assembler works out from absolute addresses
(`Assembler.displacement_eq_distance`).

`Stream.repair` makes one repair after the other, each for the first branch that is out of reach
(`Stream.Rounds`). `Pending` bounds the rounds that can follow. So the repair of a stream whose
branches have targets ends with every branch within reach, and a second repair makes no round at
all.
-/

namespace Backend6502.Code

theorem Line.eq_of_isLabel {name : String} {line : Line} (same : line.isLabel name = true) :
    line = .label name := by
  cases line with
  | label text => rw [eq_of_beq (show (text == name) = true from same)]
  | _ => cases same

section Seek

variable {name : String} {distance : Int64} {down up : Int} {after before : List Line}

theorem Tabled.add_size {lines : List Line} (tabled : Tabled lines) {line : Line}
    (inside : line ∈ lines) (sum : Int) :
    Int64.ofInt sum + line.size = Int64.ofInt (sum + line.length) := by
  rw [tabled.size inside, ← Int64.ofInt_eq_ofNat, Int64.ofInt_add]

theorem seekUp_eq_some (tabled : Tabled before)
    (found : seekUp name (.ofInt up) before = some distance) :
    ∃ inner rest, before = inner ++ .label name :: rest ∧
      distance = .ofInt (-(up + span inner)) := by
  induction before generalizing up with
  | nil => cases found
  | cons line before ih =>
    rw [seekUp] at found
    split at found
    · next here =>
      cases found
      refine ⟨[], before, by rw [Line.eq_of_isLabel here, List.nil_append], ?_⟩
      simp [Int64.ofInt_neg]
    · rw [tabled.add_size List.mem_cons_self] at found
      obtain ⟨inner, rest, rfl, same⟩ := ih (tabled.mono (List.subset_cons_self line before)) found
      refine ⟨line :: inner, rest, rfl, ?_⟩
      rw [same, span_cons]
      congr 1
      omega

/-- The distance to a label is the length of the lines between, or its negative upwards. -/
theorem seek_eq_some (below : Tabled after) (above : Tabled before)
    (found : seek name (.ofInt down) (.ofInt up) after before = some distance) :
    (∃ inner rest, after = inner ++ .label name :: rest ∧ distance = .ofInt (down + span inner)) ∨
      ∃ inner rest, before = inner ++ .label name :: rest ∧
        distance = .ofInt (-(up + span inner)) := by
  induction after generalizing down up before with
  | nil =>
    rw [seek] at found
    exact .inr (seekUp_eq_some above found)
  | cons line after ih =>
    obtain ⟨-, others⟩ := List.forall_mem_cons.mp below
    unfold seek at found
    split at found
    · next here =>
      cases found
      refine .inl ⟨[], after, by rw [Line.eq_of_isLabel here, List.nil_append], ?_⟩
      simp
    · rw [below.add_size List.mem_cons_self] at found
      have passed {inner : List Line} :
          down + line.length + span inner = down + span (line :: inner) := by
        rw [span_cons]
        omega
      cases before with
      | nil =>
        rcases ih others above found with ⟨inner, rest, rfl, same⟩ | ⟨inner, rest, cut, -⟩
        · exact .inl ⟨line :: inner, rest, rfl, by rw [same, passed]⟩
        · simp at cut
      | cons first before =>
        simp only at found
        split at found
        · next here =>
          cases found
          refine .inr ⟨[], before, by rw [Line.eq_of_isLabel here, List.nil_append], ?_⟩
          simp [Int64.ofInt_neg]
        · rw [above.add_size List.mem_cons_self] at found
          rcases ih others (above.mono (List.subset_cons_self first before)) found with
            ⟨inner, rest, rfl, same⟩ | ⟨inner, rest, rfl, same⟩
          · exact .inl ⟨line :: inner, rest, rfl, by rw [same, passed]⟩
          · refine .inr ⟨first :: inner, rest, rfl, ?_⟩
            rw [same, span_cons]
            congr 1
            omega

end Seek

theorem inRange_iff {distance : Int64} :
    inRange distance = true ↔ -128 ≤ distance.toInt ∧ distance.toInt ≤ 127 := by
  rw [inRange, Bool.and_eq_true, decide_eq_true_iff, decide_eq_true_iff, Int64.le_iff_toInt_le,
    Int64.le_iff_toInt_le]
  rfl

theorem Stream.line?_eq_some {s : Stream} {k : Int64} {i : Instruction}
    (line : s.line? k = some (.instruction i)) :
    s.lines = s.lines.take k.toInt.toNat ++ .instruction i :: s.lines.drop (k.toInt.toNat + 1) ∧
      s.spot? k = some ⟨(s.lines.take k.toInt.toNat).reverse, i,
        s.lines.drop (k.toInt.toNat + 1)⟩ := by
  constructor
  · unfold line? at line
    split at line
    · obtain ⟨inside, here⟩ := List.getElem?_eq_some_iff.mp line
      rw [← here, ← List.drop_eq_getElem_cons inside, List.take_append_drop]
    · cases line
  · rw [spot?, line]
    rfl

namespace Assembler

section Branch

variable {asm : Assembler} {stream : String} {here : Nat} {i : Instruction}

theorem mode_of_isConditional (tabled : i.IsTabled) (conditional : i.isConditional = true) :
    i.mode = .relative := by
  obtain ⟨m, row, entry, found, -⟩ := tabled.row
  rw [Instruction.isConditional, entry] at conditional
  obtain ⟨inside, mode⟩ := Cpu.Encoding.inMode?_eq_some found
  rw [← mode]
  exact Cpu.Encoding.mode_of_isBranch inside conditional

theorem instructionBytes_branch {target : UInt16} {distance : Int64} (tabled : i.IsTabled)
    (conditional : i.isConditional = true)
    (known : asm.evaluate stream i.operand.toList = .ok target)
    (same : (target.toNat : Int) - (here + 2 : Nat) = distance.toInt) :
    ∃ opcode, asm.instructionBytes stream here i =
      if inRange distance then .ok [opcode, UInt8.ofInt distance.toInt]
      else .error (.branchOutOfRange stream distance.toInt i) := by
  obtain ⟨m, row, entry, found, -⟩ := tabled.row
  refine ⟨row.opcode, ?_⟩
  rw [instructionBytes, entry, Option.bind_some, found]
  simp only [operandBytes, mode_of_isConditional tabled conditional, known]
  change ((if -128 ≤ (target.toNat : Int) - (here + 2 : Nat) ∧
      (target.toNat : Int) - (here + 2 : Nat) ≤ 127 then _ else _ : Except _ _) >>= _) = _
  rw [same]
  by_cases reach : inRange distance = true
  · rw [if_pos (inRange_iff.mp reach), if_pos reach]
    rfl
  · rw [if_neg (fun bounds => reach (inRange_iff.mpr bounds)), if_neg reach]
    rfl

end Branch

section Errors

variable {asm : Assembler} {stream : String} {here : Nat} {i : Instruction}

/-- Only displacements that a byte cannot hold are reported. -/
def Reports {α : Type} (run : Except AssemblyError α) : Prop :=
  ∀ ⦃name distance branch⦄, run = .error (.branchOutOfRange name distance branch) →
    ¬ (-128 ≤ distance ∧ distance ≤ 127)

theorem Reports.ok {α : Type} (a : α) : Reports (.ok a) := by
  rintro _ _ _ ⟨⟩

theorem Reports.bind {α β : Type} {first : Except AssemblyError α}
    {next : α → Except AssemblyError β} (before : Reports first) (after : ∀ a, Reports (next a)) :
    Reports (first >>= next) := by
  cases first with
  | error problem =>
    rintro _ _ _ ⟨⟩
    exact before rfl
  | ok a => exact after a

theorem outside_of_evaluate {cs : List Char} : Reports (asm.evaluate stream cs) := by
  rw [evaluate]
  cases AddressExpr.evaluate (asm.resolve stream) cs <;> rintro _ _ _ ⟨⟩

theorem outside_of_operandBytes : Reports (asm.operandBytes stream here i) := by
  unfold operandBytes
  split
  case h_1 | h_2 => exact .ok _
  case h_4 =>
    refine .bind outside_of_evaluate fun target => ?_
    dsimp only
    split
    · exact .ok _
    · next outside =>
      rintro _ _ _ ⟨⟩
      exact outside
  case h_3 | h_10 | h_11 | h_12 | h_13 => exact .bind outside_of_evaluate fun _ => .ok _
  all_goals
    refine .bind outside_of_evaluate fun _ => ?_
    split
    · rintro _ _ _ ⟨⟩
    · exact .ok _

theorem outside_of_instructionBytes : Reports (asm.instructionBytes stream here i) := by
  unfold instructionBytes
  split
  · rintro _ _ _ ⟨⟩
  · exact .bind outside_of_operandBytes fun _ => .ok _

theorem outside_of_lineBytes {lines : List Line} : Reports (asm.lineBytes stream here lines) := by
  induction lines generalizing here with
  | nil => exact .ok _
  | cons line rest ih =>
    cases line with
    | instruction i =>
      exact .bind outside_of_instructionBytes fun _ => .bind ih fun _ => .ok _
    | label name | verbatim text | comment text | removed => exact ih

theorem outside_of_streamBytes {streams : List Stream} :
    Reports (asm.streamBytes here streams) := by
  induction streams generalizing here with
  | nil => exact .ok _
  | cons s rest ih => exact .bind outside_of_lineBytes fun _ => .bind ih fun _ => .ok _

end Errors

section Stream

variable {s : Stream} {above below : List Line} {i : Instruction}

theorem streamBytes_cut (asm : Assembler) (here : Nat) (earlier later : List Stream)
    (cut : s.lines = above ++ .instruction i :: below) :
    ∃ rest : Nat → Except AssemblyError (List UInt8),
      asm.streamBytes here (earlier ++ s :: later) = (do
        let before ← asm.streamBytes here (earlier ++ [{ s with lines := above }])
        let bytes ← asm.instructionBytes s.name (here + before.length) i
        let after ← rest (here + before.length + bytes.length)
        return before ++ (bytes ++ after)) := by
  refine ⟨fun next => do
    let inner ← asm.lineBytes s.name next below
    let outer ← asm.streamBytes (next + inner.length) later
    return inner ++ outer, ?_⟩
  simp only [streamBytes_append, streamBytes, cut, lineBytes_append, lineBytes, bind_assoc,
    pure_bind, ok_bind, List.length_append, List.append_assoc, Nat.add_assoc, List.length_nil,
    Nat.add_zero, List.nil_append]

/-- The address of the label that a branch goes to is as far away as the repair measures. -/
theorem Laid.target {stream : String} {start : Nat} {lines : List Line} {old new : AddressBook}
    (laid : Laid stream start lines old new) (tabled : Tabled lines)
    (cut : lines = above ++ .instruction i :: below) (size : (Line.instruction i).length = 2)
    {distance : Int64} (measured : Spot.distance? ⟨above.reverse, i, below⟩ = some distance) :
    ∃ target : UInt16, new.find? (fullName stream i.operand) = some target ∧
      (target.toNat : Int) - (start + span above + 2 : Nat) = distance.toInt := by
  have here : i.IsTabled := tabled (.instruction i) (by simp [cut])
  have upper : Tabled above.reverse := tabled.mono (by intro line inside; simp_all)
  have lower : Tabled below := tabled.mono (by intro line inside; simp_all)
  have two : i.size = Int64.ofInt 2 := by
    rw [here.size, size]
    rfl
  change seek i.operand (.ofInt 0) i.size below above.reverse = some distance at measured
  rw [two] at measured
  rcases seek_eq_some lower upper measured with
    ⟨inner, rest, rfl, same⟩ | ⟨inner, rest, turned, same⟩
  · obtain ⟨small, known⟩ := laid.labels (above ++ .instruction i :: inner) i.operand rest
      (by simp [cut])
    refine ⟨_, known, ?_⟩
    rw [UInt16.toNat_ofNat_of_lt' small]
    rw [span_append, span_cons, size] at small ⊢
    rw [same, Int64.toInt_ofInt_of_le (by omega) (by omega)]
    omega
  · have back : above = rest.reverse ++ .label i.operand :: inner.reverse := by
      rw [← List.reverse_reverse above, turned]
      simp
    obtain ⟨small, known⟩ := laid.labels rest.reverse i.operand
      (inner.reverse ++ .instruction i :: below) (by simp [cut, back])
    refine ⟨_, known, ?_⟩
    have fits := laid.fits
    rw [UInt16.toNat_ofNat_of_lt' small, back]
    rw [cut, back] at fits
    simp only [span_append, span_cons, span_reverse, Line.length_label] at fits small ⊢
    rw [same, Int64.toInt_ofInt_of_le (by omega) (by omega)]
    omega

end Stream

section Agreement

variable {asm : Assembler} {start : UInt16} {earlier later : List Stream} {s : Stream}
  {labels : AddressBook} {final : UInt32} {k : Int64} {i : Instruction}

theorem assemble_eq
    (placed : placeStreams asm.labels start.toUInt32 (earlier ++ s :: later) =
      (labels, .ok final)) :
    (asm.assemble start (earlier ++ s :: later)).2 =
      { asm with labels }.streamBytes start.toNat (earlier ++ s :: later) := by
  rw [assemble, placed]

/--
Take a branch on line `k` of a stream to one of its labels, in code that the first pass has laid
out. The target that the second pass resolves is as far from the end of the branch as the branch
repair measures. The branch is reported if and only if a byte cannot hold the distance, which never
happens after a repair; otherwise its second byte is the distance.
-/
theorem displacement_eq_distance (tabled : ∀ t ∈ earlier ++ s :: later, Tabled t.lines)
    (placed : placeStreams asm.labels start.toUInt32 (earlier ++ s :: later) = (labels, .ok final))
    (line : s.line? k = some (.instruction i)) (conditional : i.isConditional = true)
    (name : AddressExpr.isName (AddressExpr.withoutDot i.operand.toList) = true)
    (label : i.operand ∈ s.labels) :
    ∃ (distance : Int64) (target : UInt16) (offset : Nat),
      s.distance k = .ok distance ∧
      { asm with labels }.evaluate s.name i.operand.toList = .ok target ∧
      offset = span (earlier.flatMap Stream.lines ++ s.lines.take k.toInt.toNat) ∧
      (target.toNat : Int) - (start.toNat + offset + 2 : Nat) = distance.toInt ∧
      (∀ code, (asm.assemble start (earlier ++ s :: later)).2 = .ok code →
        inRange distance = true ∧ code[offset + 1]? = some (UInt8.ofInt distance.toInt)) ∧
      (∀ before, { asm with labels }.streamBytes start.toNat
          (earlier ++ [{ s with lines := s.lines.take k.toInt.toNat }]) = .ok before →
        before.length = offset ∧
        ((asm.assemble start (earlier ++ s :: later)).2 =
          .error (.branchOutOfRange s.name distance.toInt i) ↔ inRange distance = false)) ∧
      (∀ source : Stream, source.repair = (s, none) → i.op.isBranch = true →
        inRange distance = true) := by
  obtain ⟨cut, spot⟩ := Stream.line?_eq_some line
  generalize s.lines.take k.toInt.toNat = above at cut spot ⊢
  generalize s.lines.drop (k.toInt.toNat + 1) = below at cut spot
  have own : Tabled s.lines := tabled s (by simp)
  have here : i.IsTabled := own (.instruction i) (by simp [cut])
  have size : (Line.instruction i).length = 2 := by
    rw [here.length, mode_of_isConditional here conditional]
    rfl
  have laid := laid_of_placeStreams tabled
    (Nat.le_of_lt (by simpa using start.toNat_lt)) placed
  rw [UInt16.toNat_toUInt32] at laid
  have measured : (Spot.distance? ⟨above.reverse, i, below⟩).isSome = true := by
    refine seek_isSome ?_
    change i.operand ∈ labelNames s.lines at label
    rw [cut] at label
    simpa [mem_labelNames, or_comm] using label
  obtain ⟨distance, measured⟩ := Option.isSome_iff_exists.mp measured
  obtain ⟨target, known, same⟩ := laid.target own cut size measured
  have found : { asm with labels }.resolve s.name (.ofList i.operand.toList) = some target := by
    rw [String.ofList_toList, resolve, known]
  have resolved : { asm with labels }.evaluate s.name i.operand.toList = .ok target := by
    rw [evaluate, AddressExpr.evaluate_name name found]
    rfl
  rw [Nat.add_assoc start.toNat, ← span_append] at same
  obtain ⟨opcode, encoded⟩ := instructionBytes_branch here conditional resolved same
  obtain ⟨rest, parts⟩ := streamBytes_cut { asm with labels } start.toNat earlier later cut
  rw [← assemble_eq placed] at parts
  have counted {before : List UInt8} (first : { asm with labels }.streamBytes start.toNat
      (earlier ++ [{ s with lines := above }]) = .ok before) :
      before.length = span (earlier.flatMap Stream.lines ++ above) := by
    have upper : ∀ t ∈ earlier ++ [{ s with lines := above }], Tabled t.lines := by
      intro t inside
      rcases List.mem_append.mp inside with inside | inside
      · exact tabled t (List.mem_append_left _ inside)
      · rw [List.mem_singleton.mp inside]
        exact own.mono (by simp [cut])
    rw [length_streamBytes upper first]
    simp
  refine ⟨distance, target, _, ?_, resolved, rfl, same, ?_, ?_, ?_⟩
  · rw [Stream.distance, spot]
    simp only [measured]
  · intro code assembled
    rw [parts] at assembled
    obtain ⟨before, first, assembled⟩ := ok_of_bind assembled
    rw [counted first, encoded] at assembled
    obtain ⟨bytes, second, assembled⟩ := ok_of_bind assembled
    obtain ⟨after, -, assembled⟩ := ok_of_bind assembled
    cases assembled
    split at second
    · next reach =>
      cases second
      refine ⟨reach, ?_⟩
      rw [← counted first, List.getElem?_append_right (Nat.le_add_right ..)]
      simp
    · cases second
  · intro before first
    refine ⟨counted first, ?_, ?_⟩
    · intro failed
      rw [assemble_eq placed] at failed
      rw [← Bool.not_eq_true, inRange_iff]
      exact outside_of_streamBytes failed
    · intro outside
      rw [parts, first, ok_bind, counted first, encoded, if_neg (by simp [outside])]
      rfl
  · intro source repaired branches
    obtain ⟨_, reached, near⟩ := Stream.inRange_of_repair repaired cut branches
    rw [measured] at reached
    cases reached
    exact near

/-- Counts the X register down to zero. -/
def countdown : Stream where
  name := "count"
  lines := [.label "count", .comment "down to zero", .label ".loop",
    .instruction ⟨.known .dex, .implied, "", 2, 0, 1, false⟩, .removed,
    .instruction (.branch .bne ".loop"), .instruction ⟨.known .rts, .implied, "", 6, 0, 1, false⟩]

def countdownCaller : Stream where
  name := "main"
  lines := [.label "main", .instruction ⟨.known .jsr, .absolute, "count", 6, 0, 3, false⟩,
    .instruction ⟨.known .rts, .implied, "", 6, 0, 1, false⟩]

/-- The branch back over itself and the instruction before it goes three bytes back. -/
theorem countdown_displacement :
    countdown.line? 5 = some (.instruction (.branch .bne ".loop")) ∧
      ∃ target : UInt16,
        { labels := (placeStreams {} 0xC000 ([countdownCaller] ++ countdown :: [])).1 :
          Assembler }.evaluate "count" ".loop".toList = .ok target ∧
        (target.toNat : Int) - (0xC000 + 5 + 2 : Nat) = -3 := by
  have line : countdown.line? 5 = some (.instruction (.branch .bne ".loop")) := rfl
  have placed : placeStreams {} 0xC000 ([countdownCaller] ++ countdown :: []) =
      ((placeStreams {} 0xC000 ([countdownCaller] ++ countdown :: [])).1, .ok 0xC008) := by
    decide +kernel
  have measured : countdown.distance 5 = .ok (-3) := by decide +kernel
  refine ⟨line, ?_⟩
  obtain ⟨distance, target, offset, same, resolved, rfl, displaced, -⟩ :=
    @displacement_eq_distance {} 0xC000 [countdownCaller] [] countdown _ _ 5 _ (by decide +kernel)
      placed line rfl (by decide +kernel) (by decide)
  rw [measured] at same
  cases same
  exact ⟨target, resolved, displaced⟩

end Agreement

end Assembler

/-- Labels and assembler text stay in a stream whatever is repaired around them. -/
def Line.lasts : Line → Bool
  | .label _ | .verbatim _ => true
  | _ => false

/-- A decision is made without labels and assembler text. -/
theorem Site.Made.filter_lasts {site : Site} {landing old : List Line}
    (made : site.Made landing old) : old.filter Line.lasts = [] := by
  refine List.filter_eq_nil_iff.mpr fun line inside => ?_
  rcases made.line_cases inside with silent | ⟨i, m, rfl, -⟩
  · cases line with
    | comment | removed => nofun
    | label | instruction | verbatim => cases silent
  · nofun

namespace Stream

namespace Rounds

variable {n : Nat} {s t : Stream}

theorem fixes_eq (rounds : Rounds n s t) : t.fixes = s.fixes + n := by
  induction rounds with
  | none => rfl
  | @next n s t spot site _ _ _ ih =>
    rw [ih]
    change s.fixes + 1 + n = s.fixes + (n + 1)
    omega

/-- A round replaces nothing but branches and silent lines. -/
theorem filter_lasts_repairSite {spot : Spot} {site : Site}
    (far : firstFar? s.name [] s.lines = .ok (some spot))
    (decided : Site.ofBranch? spot = some site) :
    (s.lines.filter Line.lasts).Sublist ((s.repairSite site).lines.filter Line.lasts) := by
  obtain ⟨old, landing, made, whole⟩ := exists_made_of_far far decided
  rw [whole, lines_repairSite]
  simp only [List.filter_append, made.filter_lasts, List.nil_append]
  exact (List.sublist_append_right ..).append_left _

theorem filter_lasts (rounds : Rounds n s t) :
    (s.lines.filter Line.lasts).Sublist (t.lines.filter Line.lasts) := by
  induction rounds with
  | none => exact .refl _
  | next far decided _ ih => exact (filter_lasts_repairSite far decided).trans ih

end Rounds

/-- Where no branch is out of reach, there is nothing to repair. -/
theorem repair_of_firstFar?_none {s : Stream} (near : firstFar? s.name [] s.lines = .ok none) :
    s.repair = (s, none) := by
  rw [repair, repairUpTo, near]

/-- The distance of a branch is the one that the search for a branch out of reach measures. -/
theorem distance_of_firstFar?_none {s : Stream} (near : firstFar? s.name [] s.lines = .ok none)
    {k : Int64} {i : Instruction} (line : s.line? k = some (.instruction i))
    (branches : i.op.isBranch = true) :
    ∃ distance, s.distance k = .ok distance ∧ -128 ≤ distance.toInt ∧ distance.toInt ≤ 127 := by
  obtain ⟨cut, spot⟩ := line?_eq_some line
  rw [cut] at near
  obtain ⟨distance, measured, reach⟩ := inRange_of_firstFar?_none near branches
  refine ⟨distance, ?_, inRange_iff.mp reach⟩
  rw [Stream.distance, spot]
  simp only [measured]

/--
Take a stream whose branches all go to labels of the stream. Its repair goes through after at most
two rounds for each branch, and counts them. Then every branch is within reach of its label, the
labels and the assembler text are still there in their order, and a second repair changes nothing.
-/
theorem repair_settles (s : Stream)
    (targets : ∀ i ∈ s.instructions, i.op.isBranch = true → i.operand ∈ s.labels) :
    ∃ t n, s.repair = (t, none) ∧ Rounds n s t ∧ n ≤ 2 * s.branchCount ∧
      t.fixes = s.fixes + n ∧
      (∀ k i, t.line? k = some (.instruction i) → i.op.isBranch = true →
        ∃ distance, t.distance k = .ok distance ∧
          -128 ≤ distance.toInt ∧ distance.toInt ≤ 127) ∧
      (s.lines.filter Line.lasts).Sublist (t.lines.filter Line.lasts) ∧
      t.repair = (t, none) := by
  have served : Served s.lines :=
    fun i inside => targets i (List.mem_filterMap.mpr ⟨_, inside, rfl⟩)
  have done : s.repair = (s.repair.1, none) :=
    Prod.ext rfl (repairUpTo_of_served _ s served)
  obtain ⟨n, rounds, fewer, near⟩ := rounds_of_repair done
  exact ⟨_, n, done, rounds, fewer, rounds.fixes_eq,
    fun _ _ => distance_of_firstFar?_none near, rounds.filter_lasts, repair_of_firstFar?_none near⟩

/--
A comparison far above its target. The first repair brings in a label that also stands before the
assembler text above, so its own first branch has to be repaired as well.
-/
def wedged : Stream where
  name := "wedged"
  lines := .label ".fix1" :: .verbatim (.ofList (List.replicate 43 ['x', '\n']).flatten) ::
    .instruction (.branch .beq ".h") :: .instruction (.branch .bpl ".L") :: .label ".h" ::
    (List.replicate 43 (.instruction (.jump ".L")) ++ [.label ".L"])

theorem wedged_settles :
    (∀ i ∈ wedged.instructions, i.op.isBranch = true → i.operand ∈ wedged.labels) ∧
      ∃ t, wedged.repair = (t, none) ∧ t.fixes = 2 ∧ t.repair = (t, none) := by
  have targets : ∀ i ∈ wedged.instructions, i.op.isBranch = true → i.operand ∈ wedged.labels := by
    decide +kernel
  have counted : wedged.repair.1.fixes = 2 := by decide +kernel
  refine ⟨targets, ?_⟩
  obtain ⟨t, n, done, -, -, -, -, -, again⟩ := repair_settles wedged targets
  rw [done] at counted
  exact ⟨t, done, counted, again⟩

end Stream

end Backend6502.Code
