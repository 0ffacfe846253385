import Backend6502.Proofs.OptimizedRuns

/-!
# Loads that have no effect

Where a scan removes a single instruction, that is a load of what its register holds already, and
nobody reads the flags that it sets. This is so on every run that comes to the load: from the first
line or from a label, whatever is called, and whatever assembler text does (`Roams`).
-/

namespace Backend6502.Code

open Cpu (Mnemonic Flag State)

open Relation (ReflTransGen)

variable {w v : Surroundings} {lines before rest above below : List Line} {p q : Point}
  {i : Instruction} {s : State} {address : String → UInt16} {line : Line}

/--
A step of a run in which calls and assembler text may do anything. They may leave any state behind,
and assembler text may go on at any label. So may a jump, since its operand may be an address.
-/
inductive Roams (address : String → UInt16) (lines : List Line) : Point → Point → Prop where
  | next {line : Line} {rest : List Line} {s after : State}
      (verbatim call : String → State → Option State)
      (flow : line.flow ⟨address, verbatim, call⟩ s = .next after) :
      Roams address lines ⟨line :: rest, s⟩ ⟨rest, after⟩
  | jump {line : Line} {rest above below : List Line} {s : State} {target name : String}
      (verbatim call : String → State → Option State)
      (flow : line.flow ⟨address, verbatim, call⟩ s = .jump target)
      (placed : lines = above ++ .label name :: below) :
      Roams address lines ⟨line :: rest, s⟩ ⟨.label name :: below, s⟩
  | enter {text name : String} {rest above below : List Line} (s after : State)
      (placed : lines = above ++ .label name :: below) :
      Roams address lines ⟨.verbatim text :: rest, s⟩ ⟨.label name :: below, after⟩

/-- A step in known surroundings is one of these. -/
theorem Roams.of_step? (step : p.step? w lines = some q) : Roams w.address lines p q := by
  obtain ⟨rest, s⟩ := p
  cases rest with
  | nil => cases step
  | cons line rest =>
    unfold Point.step? at step
    dsimp only at step
    split at step
    · next after flow =>
      cases step
      exact .next w.verbatim w.call flow
    · next label flow =>
      obtain ⟨found, target, rfl⟩ := Option.map_eq_some_iff.mp step
      obtain ⟨above, placed⟩ := fromLabel?_suffix target
      obtain ⟨below, rfl⟩ := fromLabel?_head target
      exact .jump w.verbatim w.call flow placed.symm
    · cases step

theorem Roams.of_steps (steps : Steps w lines p q) : ReflTransGen (Roams w.address lines) p q := by
  induction steps with
  | refl => exact .refl
  | head first _ ih => exact .head (.of_step? first) ih

/-- A run may begin at the first line and at any label, in any state. -/
inductive Begins (lines : List Line) : Point → Prop where
  | first (s : State) : Begins lines ⟨lines, s⟩
  | label {above below : List Line} {name : String} (placed : lines = above ++ .label name :: below)
      (s : State) : Begins lines ⟨.label name :: below, s⟩

/-- A run comes to a point. -/
def Arrives (address : String → UInt16) (lines : List Line) (p : Point) : Prop :=
  ∃ start, Begins lines start ∧ ReflTransGen (Roams address lines) start p

/-- What instructions leave behind does not depend on calls and assembler text. -/
theorem Instruction.Left.of_address (same : w.address = v.address) (left : i.Left w s) :
    i.Left v s := by
  obtain ⟨address, _, _⟩ := w
  obtain ⟨_, _, _⟩ := v
  cases same
  exact ⟨left.stored, left.compared⟩

theorem Knows.of_address (same : w.address = v.address) (knows : Knows w before rest s) :
    Knows v before rest s := by
  refine knows.imp_right fun ⟨holds, left⟩ => ⟨holds, ?_⟩
  intro i above nearest
  exact (left i above nearest).of_address same

/-- What is known of a point: where it lies among the lines, and what the lines before it tell. -/
def Informed (w : Surroundings) (lines : List Line) (p : Point) : Prop :=
  ∃ before, lines = before.reverse ++ p.rest ∧ Knows w before p.rest p.cpu

/-- At a label nothing need be known. -/
theorem Informed.label {name : String} (placed : lines = above ++ .label name :: below)
    (s : State) :
    Informed w lines ⟨.label name :: below, s⟩ := by
  refine ⟨above.reverse, ?_, .inl ⟨name, below, rfl⟩⟩
  rw [List.reverse_reverse]
  exact placed

theorem Begins.informed (begins : Begins lines p) : Informed w lines p := by
  cases begins with
  | first s =>
    refine ⟨[], rfl, .inr ⟨Known.holds_nothing s, ?_⟩⟩
    intro i above nearest
    cases nearest
  | label placed s => exact .label placed s

/-- A step keeps what is known. -/
theorem Informed.step (listed : Listed lines) (informed : Informed w lines p)
    (roams : Roams w.address lines p q) : Informed w lines q := by
  cases roams with
  | @next line rest s after verbatim call flow =>
    obtain ⟨before, whole, knows⟩ := informed
    have here : Listed (line :: rest) := by
      intro i inside
      apply listed i
      rw [whole]
      exact List.mem_append_right _ inside
    let v : Surroundings := ⟨w.address, verbatim, call⟩
    have same : w.address = v.address := rfl
    have knows : Knows v (line :: before) rest after := (knows.of_address same).next here flow
    refine ⟨line :: before, ?_, knows.of_address same.symm⟩
    rw [whole, List.reverse_cons, List.append_assoc]
    rfl
  | jump _ _ _ placed | enter _ _ placed => exact .label placed _

/-- Wherever a run comes to, what is known there is true. -/
theorem Arrives.informed (listed : Listed lines) (arrives : Arrives w.address lines p) :
    Informed w lines p := by
  obtain ⟨start, begins, run⟩ := arrives
  induction run with
  | refl => exact begins.informed
  | tail _ roams ih => exact ih.step listed roams

/-- Does a line set the sign and zero flags anew, or is it a call or a return? -/
def Line.dropsSigns : Line → Bool
  | .instruction i => i.op.entry?.any fun m =>
    Flag.signs.sets m || m == .jsr || m == .rts || m == .rti
  | _ => false

/-- A step from a line after which the sign and zero flags may still be the ones before it. -/
def Lingers (address : String → UInt16) (lines : List Line) (p q : Point) : Prop :=
  Roams address lines p q ∧ ∀ line rest, p.rest = line :: rest → line.dropsSigns = false

/-- As long as dead flags stand, control goes on line by line, and they stay dead. -/
theorem flagsLive_of_lingers (dead : flagsLive p.rest = false)
    (lingers : Lingers address lines p q) : flagsLive q.rest = false := by
  obtain ⟨roams, keeps⟩ := lingers
  cases roams with
  | @next line rest s after _ _ flow =>
    cases line with
    | instruction i =>
      obtain ⟨m, entry, unread, steady, later⟩ := entry?_of_flagsLive dead
      have kept : (Flag.signs.sets m || m == .jsr || m == .rts || m == .rti) = false := by
        have kept := keeps _ _ rfl
        rw [Line.dropsSigns, entry] at kept
        exact kept
      simp only [Bool.or_eq_false_iff] at kept
      refine later kept.1.1.1 ?_
      obtain ⟨-, branches⟩ := Bool.or_eq_false_iff.mp steady
      cases m with
      | jmp => cases steady
      | brk => cases unread
      | jsr | rts | rti => simp at kept
      | bcc | bcs | beq | bne | bmi | bpl | bvc | bvs => cases branches
      | _ => rfl
    | label name => cases dead
    | verbatim text => cases dead
    | comment text => exact dead
    | removed => exact dead
  | @jump line _ _ _ _ target _ _ _ flow =>
    have goes := Line.goesTo_of_flow flow
    cases line with
    | instruction i =>
      obtain ⟨m, entry, -, steady, -⟩ := entry?_of_flagsLive dead
      rw [Line.goesTo, Instruction.steers, entry, Option.any_some, steady] at goes
      cases goes
    | _ => cases goes
  | enter => cases dead

theorem reads_of_flagsLive (dead : flagsLive (line :: rest) = false) :
    line.reads .signs = false := by
  cases line with
  | instruction i =>
    obtain ⟨m, entry, unread, -⟩ := entry?_of_flagsLive dead
    rw [Line.reads, entry]
    exact unread
  | verbatim text => cases dead
  | label name | comment text | removed => rfl

/-- In this state and before these lines, it makes no difference whether an instruction is there. -/
structure Instruction.Idle (address : String → UInt16) (lines rest : List Line) (i : Instruction)
    (s : State) : Prop where
  /-- It goes on with the next line and changes nothing but the sign and zero flags. -/
  effect : ∃ negative zero, ∀ verbatim call,
    i.flow ⟨address, verbatim, call⟩ s = .next (s.withSigns negative zero)
  /-- Nobody reads these flags before they are set again, unless beyond a call or a return. -/
  unread : ∀ after line below t,
    ReflTransGen (Lingers address lines) ⟨rest, after⟩ ⟨line :: below, t⟩ →
      line.reads .signs = false

/-- Flags that are dead behind an instruction are not read on any way from there. -/
theorem unread_of_flagsLive (dead : flagsLive rest = false) {after t : State}
    (run : ReflTransGen (Lingers address lines) ⟨rest, after⟩ ⟨line :: below, t⟩) :
    line.reads .signs = false := by
  have stillDead {p : Point} (run : ReflTransGen (Lingers address lines) ⟨rest, after⟩ p) :
      flagsLive p.rest = false := by
    induction run with
    | refl => exact dead
    | tail _ lingers ih => exact flagsLive_of_lingers ih lingers
  exact reads_of_flagsLive (stillDead run)

theorem Redundant.idle {m : Mnemonic} (redundant : Redundant before i m)
    (found : i.mnemonic? = some m) (loads : i.isLoad = true) (dead : flagsLive rest = false)
    (listed : Listed (before.reverse ++ .instruction i :: rest))
    (arrives : Arrives address (before.reverse ++ .instruction i :: rest)
      ⟨.instruction i :: rest, s⟩) :
    i.Idle address (before.reverse ++ .instruction i :: rest) rest s where
  effect := by
    let w : Surroundings := ⟨address, fun _ _ => none, fun _ _ => none⟩
    have informed : Informed w _ _ := Arrives.informed (w := w) listed arrives
    obtain ⟨above, whole, knows⟩ := informed
    obtain rfl : above = before :=
      List.reverse_injective (List.append_cancel_right whole.symm)
    rcases knows with ⟨_, _, label⟩ | ⟨holds, left⟩
    · cases label
    · obtain ⟨alike, flags⟩ := redundant.execute (w := w) holds left
      let t := s.execute m (w.access i s)
      have carry : t.carry = s.carry := by
        rcases flags .carry with sets | same
        · rw [Instruction.isLoad, found] at loads
          cases m <;> first | (cases loads; done) | cases sets
        · exact Eq.symm same
      have same : t = s.withSigns t.negative t.zero := by
        have alike : s = (t.withSigns s.negative s.zero).withCarry s.carry := alike
        rw [alike, ← carry]
        rfl
      refine ⟨t.negative, t.zero, ?_⟩
      intro verbatim call
      rw [Instruction.flow_known (Instruction.op_of_mnemonic? found),
        Instruction.flowAs_straight redundant.isStraight, ← same]
      rfl
  unread _ _ _ _ run := unread_of_flagsLive dead run

theorem length_removeNearest (lines : List Line) : (removeNearest lines).length = lines.length := by
  induction lines with
  | nil => rfl
  | cons line rest ih =>
    rw [removeNearest]
    split
    · rw [List.length_cons, ih, List.length_cons]
    · rfl

theorem removeNearest_ne (nearest : nearestInstruction? lines = some (i, above)) :
    removeNearest lines ≠ lines := by
  obtain ⟨gap, silent, rfl⟩ := nearestInstruction?_eq_some nearest
  rw [removeNearest_of_silent silent]
  intro same
  cases List.append_cancel_left same

theorem unchanged_elsewhere {changed : List Line} {new other placed : Line}
    (old : above ++ line :: rest = before ++ other :: below)
    (after : above ++ new :: rest = changed ++ placed :: below)
    (length : changed.length = before.length) :
    (before = above ∧ changed = above ∧ other = line ∧ placed = new ∧ below = rest) ∨
      placed = other := by
  by_cases same : above.length = before.length
  · obtain ⟨rfl, first⟩ := List.append_inj old same
    obtain ⟨rfl, second⟩ := List.append_inj after (same.trans length.symm)
    cases first
    cases second
    exact .inl ⟨rfl, rfl, rfl, rfl, rfl⟩
  · right
    have here : (above ++ line :: rest)[before.length]? = some other := by
      rw [old, List.getElem?_append_right (Nat.le_refl _), Nat.sub_self]
      rfl
    have there : (above ++ new :: rest)[before.length]? = some placed := by
      rw [after, ← length, List.getElem?_append_right (Nat.le_refl _), Nat.sub_self]
      rfl
    rcases Nat.lt_or_gt_of_ne same with past | ahead
    · obtain ⟨k, far⟩ := Nat.exists_eq_add_of_lt past
      rw [far, Nat.add_assoc, List.getElem?_append_right (Nat.le_add_right _ _),
        Nat.add_sub_cancel_left, List.getElem?_cons_succ] at here there
      exact Option.some.inj (there.symm.trans here)
    · rw [List.getElem?_append_left ahead] at here there
      exact Option.some.inj (there.symm.trans here)

/-- A rule for two instructions that spares the first one is the rule for reloads. -/
theorem PairReduction.reload_of_find? {k : Known} {first second : Instruction}
    {reduction : PairReduction} (found : find? k first second rest = some reduction) :
    reduction.second ≠ .instruction second ∧
      (reduction.dropFirst = true ∨ first.mnemonic? = some .sta ∧ second.mnemonic? = some .lda ∧
        first.mode = second.mode ∧ first.operand = second.operand ∧ flagsLive rest = false) := by
  rcases find?_eq_some found with
    ⟨-, -, rule⟩ | ⟨stores, loads, rule⟩ | ⟨m, equal, -, -, branches, rule⟩
  · obtain ⟨-, -, rfl⟩ := ofPull?_eq_some rule
    exact ⟨nofun, .inl rfl⟩
  · obtain ⟨-, mode, operand, dead, rfl⟩ := ofReload?_eq_some rule
    exact ⟨nofun, .inr ⟨stores, loads, mode, operand, dead⟩⟩
  · obtain ⟨-, -, -, value, held, -, -, rfl⟩ := ofCompare?_eq_some rule
    refine ⟨?_, .inl rfl⟩
    intro same
    unfold decidedLine at same
    split at same
    · have jumps : second.mnemonic? = some .jmp := by
        rw [← Line.instruction.inj same]
        rfl
      cases equal <;> cases branches.symm.trans jumps
    · cases same

/-- If a scan removes one instruction and nothing else, this is a redundant load with dead flags. -/
theorem redundant_of_scan {count : Nat}
    (removes : scan {} [] (above ++ .instruction i :: rest) =
      some ⟨above ++ .removed :: rest, count⟩)
    (plain : i.mode = .immediate ∨ i.mode.isDirect = true)
    (listed : Listed (above ++ .instruction i :: rest)) :
    ∃ m, i.mnemonic? = some m ∧ i.isLoad = true ∧ Redundant above.reverse i m ∧
      flagsLive rest = false := by
  obtain ⟨middle, j, below, whole, reduces⟩ := scan_eq_some [] removes
  rcases reduceAt?_eq_some reduces with ⟨first, up, reduction, nearest, matched, same⟩ |
    ⟨redundant, same⟩
  · obtain ⟨changed, rule⟩ := PairReduction.reload_of_find? matched
    have length : (if reduction.dropFirst then removeNearest middle else middle).reverse.length =
        middle.reverse.length := by
      split
      · rw [List.length_reverse, List.length_reverse, length_removeNearest]
      · rfl
    rcases unchanged_elsewhere whole (congrArg Reduced.lines same) length with
      ⟨rfl, kept, here, -, rfl⟩ | same
    · have spared : reduction.dropFirst = false := by
        rw [Bool.eq_false_iff]
        intro drops
        rw [drops, if_pos rfl] at kept
        exact removeNearest_ne nearest (List.reverse_injective kept)
      cases here
      rw [spared] at rule
      obtain ⟨stores, loads, mode, operand, dead⟩ := rule.resolve_left Bool.false_ne_true
      have direct : first.mode.isDirect = true := by
        rcases plain with immediate | direct
        · obtain ⟨gap, -, rfl⟩ := nearestInstruction?_eq_some nearest
          have tabled : first.IsTabled := listed first (by simp)
          obtain ⟨m, row, entry, inMode, -⟩ := tabled.row
          cases (Instruction.entry?_of_mnemonic? stores).symm.trans entry
          rw [mode, immediate] at inMode
          cases inMode
        · rw [mode]
          exact direct
      refine ⟨.lda, loads, ?_, ?_, dead⟩
      · rw [Instruction.isLoad, loads]
        rfl
      · rw [List.reverse_reverse]
        exact .reload nearest stores direct mode operand
    · exact absurd same changed
  · rcases unchanged_elsewhere whole (congrArg Reduced.lines same) rfl with
      ⟨rfl, -, here, -, rfl⟩ | same
    · cases here
      obtain ⟨m, value, loads, immediate, known, -, dead⟩ := redundantLoad_eq_true redundant
      rw [List.reverse_reverse]
      refine ⟨m, loads, ?_, .load immediate known, dead⟩
      rw [Instruction.isLoad, loads]
      cases m <;> first | rfl | cases known
    · cases same

/--
A load that a scan removes is idle wherever a run comes to it, if it loads a constant or what lies
at an address that is not itself read from memory.
-/
theorem idle_of_scan {address : String → UInt16} {above rest : List Line} {i : Instruction}
    {count : Nat} {s : State} (listed : Listed (above ++ .instruction i :: rest))
    (removes : scan {} [] (above ++ .instruction i :: rest) =
      some ⟨above ++ .removed :: rest, count⟩)
    (plain : i.mode = .immediate ∨ i.mode.isDirect = true)
    (arrives : Arrives address (above ++ .instruction i :: rest) ⟨.instruction i :: rest, s⟩) :
    i.Idle address (above ++ .instruction i :: rest) rest s := by
  obtain ⟨m, found, loads, redundant, dead⟩ := redundant_of_scan removes plain listed
  rw [← List.reverse_reverse above] at listed arrives ⊢
  exact redundant.idle found loads dead listed arrives

/-- The first lines of a loop that stores the accumulator after a call and assembler text. -/
def refillStart : List Line :=
  [.label "refill", .instruction ⟨.known .jsr, .absolute, "next", 6, 0, 3, false⟩, .label ".again",
    .verbatim "\tBIT latch", .instruction ⟨.known .sta, .absoluteX, "t,X", 5, 0, 3, false⟩,
    .comment "once more"]

/-- Loads what has just been stored. -/
def refillLoad : Instruction :=
  ⟨.known .lda, .absoluteX, "t,X", 4, 5, 3, false⟩

/-- The loop goes on until X is zero. -/
def refillRest : List Line :=
  [.instruction ⟨.known .inx, .implied, "", 2, 0, 1, false⟩, .instruction (.branch .bne ".again"),
    .instruction ⟨.known .rts, .implied, "", 6, 0, 1, false⟩]

/-- In the second round, where a jump has led to, the load that is removed is idle. -/
theorem refillLoad_idle :
    let lines := refillStart ++ .instruction refillLoad :: refillRest
    Listed lines ∧ (scan {} [] lines).any (·.lines == refillStart ++ .removed :: refillRest) =
      true ∧
      ∃ s, s.x = 1 ∧ Arrives flagSetting.address lines ⟨.instruction refillLoad :: refillRest, s⟩ ∧
        refillLoad.Idle flagSetting.address lines refillRest s := by
  intro lines
  have listed : Listed lines := by
    intro i inside
    simp only [lines, refillStart, refillRest, List.cons_append, List.nil_append, List.mem_cons,
      List.not_mem_nil, Line.instruction.injEq, reduceCtorEq, false_or, or_false] at inside
    rcases inside with rfl | rfl | rfl | rfl | rfl | rfl <;> decide
  have scanned : (scan {} [] lines).any (·.lines == refillStart ++ .removed :: refillRest) =
      true := by
    decide +kernel
  refine ⟨listed, scanned, ?_⟩
  obtain ⟨⟨_, count⟩, removes, same⟩ := (Option.any_eq_true _ _).mp scanned
  cases eq_of_beq same
  let p := (⟨lines, {}⟩ : Point).after flagSetting lines 13
  have here : p.rest = .instruction refillLoad :: refillRest := by decide +kernel
  have second : p.cpu.x = 1 := by decide +kernel
  have run : Steps flagSetting lines ⟨lines, {}⟩ p := .after 13 _
  have arrives :
      Arrives flagSetting.address lines ⟨.instruction refillLoad :: refillRest, p.cpu⟩ := by
    rw [← here]
    exact ⟨_, .first {}, Roams.of_steps run⟩
  exact ⟨p.cpu, second, arrives, idle_of_scan listed removes (.inr rfl) arrives⟩

end Backend6502.Code
