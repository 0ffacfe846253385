import Backend6502.Machine
import Backend6502.Proofs.SafeStatements
import Backend6502.Proofs.TidyStreams

/-!
# Runs of optimized streams

The optimizer keeps the meaning of tidy streams: the run through what is left goes along with the
run through the stream as it was, in the same registers and the same memory, and the flags differ at
most where nobody reads them. Streams that are not tidy can come to store other values, and so can a
whole program that is compiled with the optimizer and without it.
-/

namespace Backend6502.Code

open Cpu (Mnemonic Flag State)

open Relation (ReflTransGen)

variable {lines new : List Line} {w : Surroundings}
variable {rest below before : List Line} {j i : Instruction} {reduced : Reduced}

theorem steady_of_flagsLive (dead : flagsLive rest = false)
    (next : nearestInstruction? rest = some (j, below)) : j.isEquality = false := by
  obtain ⟨gap, silent, rfl⟩ := nearestInstruction?_eq_some next
  have ahead : flagsLive (.instruction j :: below) = false := by
    clear next
    induction gap with
    | nil => exact dead
    | cons line gap ih =>
      obtain ⟨head, others⟩ := List.forall_mem_cons.mp silent
      cases line with
      | comment text => exact ih others dead
      | removed => exact ih others dead
      | _ => cases head
  obtain ⟨m, entry, -, straight, -⟩ := entry?_of_flagsLive ahead
  rw [Bool.eq_false_iff]
  intro equality
  obtain ⟨n, found, branches⟩ := (Option.any_eq_true _ _).mp equality
  cases entry.symm.trans (Instruction.entry?_of_mnemonic? found)
  cases m <;> first | (cases branches; done) | cases straight

theorem steady_of_readsCompareNext (quiet : readsCompareNext rest = false)
    (next : nearestInstruction? rest = some (j, below)) : j.isEquality = false := by
  rw [Bool.eq_false_iff]
  intro equality
  have reads : readsCompareNext rest = true := by
    rw [readsCompareNext, next]
    exact Instruction.readsCompare_of_isEquality equality
  rw [quiet] at reads
  cases reads

theorem change_of_load {m : Mnemonic} (found : i.mnemonic? = some m)
    (redundant : Redundant before i m) (loads : i.isLoad = true) (dead : flagsLive rest = false) :
    Change (before.reverse ++ .instruction i :: rest) (before.reverse ++ .removed :: rest) := by
  refine .intro (.redundant found redundant fun f set => ?_) fun j below => steady_of_flagsLive dead
  cases f with
  | signs => exact not_reads_of_flagsLive _ dead
  | carry =>
    rw [Instruction.isLoad, found] at loads
    cases m <;> first | (cases loads; done) | cases set

/--
First the branch that is decided is swapped, then the compare, whose flags nobody reads any more.
-/
theorem changes_of_compare {above : List Line} {first : Instruction} {taken : Bool}
    (tidy : Tidy (before.reverse ++ .instruction j :: rest))
    (nearest : nearestInstruction? before = some (first, above)) (decided : Decided before j taken)
    (decides : first.decides j = true) (quiet : readsCompareNext rest = false) :
    ReflTransGen Change (before.reverse ++ .instruction j :: rest)
      ((removeNearest before).reverse ++ decidedLine j taken :: rest) := by
  have steady (last : Instruction) (below : List Line)
      (next : nearestInstruction? rest = some (last, below)) : last.isEquality = false :=
    steady_of_readsCompareNext quiet next
  have settled := tidy.settled before rest first j above rfl nearest decides quiet
  have change : Change (before.reverse ++ .instruction j :: rest)
      (before.reverse ++ decidedLine j taken :: rest) := by
    refine .intro ?_ steady
    cases taken with
    | true => exact .always decided
    | false => exact .never decided
  have after := settled.of_swaps change.swaps (.refl _ [] rest)
  obtain ⟨gap, silent, rfl⟩ := nearestInstruction?_eq_some nearest
  have upward : ∀ line ∈ gap.reverse, line.isSilent = true :=
    fun line inside => silent line (List.mem_reverse.mp inside)
  have shape (line : Line) : (gap ++ line :: above).reverse ++ decidedLine j taken :: rest =
      above.reverse ++ line :: (gap.reverse ++ decidedLine j taken :: rest) := by simp
  rw [shape] at change after
  rw [removeNearest_of_silent silent, shape]
  refine (ReflTransGen.single change).tail (.intro ?_ ?_)
  · simp only [Instruction.decides, Bool.and_eq_true] at decides
    obtain ⟨m, found, compares⟩ := (Option.any_eq_true _ _).mp decides.1.1.1.1
    refine .redundant found (.compare compares) fun f _ reads => ?_
    have onward := reads.of_silents upward
    cases taken with
    | true =>
      obtain ⟨found, target, later⟩ := onward.of_jump
      exact (after f).2 found target later
    | false => exact (after f).1 (onward.of_silent rfl)
  · intro last below next
    rw [nearestInstruction?_of_silent upward] at next
    cases taken with
    | true =>
      cases next
      rfl
    | false => exact steady last below next

theorem reduceAt?_changes (tidy : Tidy (before.reverse ++ .instruction i :: rest))
    (found : reduceAt? (knownAfter before) before i rest = some reduced) :
    ReflTransGen Change (before.reverse ++ .instruction i :: rest) reduced.lines := by
  rcases reduceAt?_eq_some found with ⟨first, above, reduction, nearest, matched, rfl⟩ |
    ⟨redundant, rfl⟩
  · have apart := tidy.not_clashes nearest
    rcases PairReduction.find?_eq_some matched with ⟨pull, push, rule⟩ | ⟨stores, loads, rule⟩ |
      ⟨m, equal, one, compares, two, rule⟩
    · obtain ⟨kept, bare, -⟩ := PairReduction.ofPull?_eq_some rule
      rw [Instruction.clashes, pull, push, kept, bare] at apart
      cases apart
    · obtain ⟨bare, mode, operand, dead, rfl⟩ := PairReduction.ofReload?_eq_some rule
      have direct : first.mode.isDirect = true := by
        rw [Instruction.clashes, stores, loads, bare, mode, operand] at apart
        rw [mode]
        simpa using apart
      refine .single (change_of_load loads (.reload nearest stores direct mode operand) ?_ dead)
      rw [Instruction.isLoad, loads]
      rfl
    · obtain ⟨kept, bare, quiet, value, held, immediate, known, rfl⟩ :=
        PairReduction.ofCompare?_eq_some rule
      refine changes_of_compare tidy nearest (.intro nearest one immediate known two) ?_ quiet
      simp only [Instruction.decides, Instruction.isCompare, Instruction.isEquality, one, two,
        immediate, kept, bare, Option.any_some, compares]
      cases equal <;> rfl
  · obtain ⟨m, value, loads, immediate, known, -, dead⟩ := redundantLoad_eq_true redundant
    refine .single (change_of_load loads (.load immediate known) ?_ dead)
    rw [Instruction.isLoad, loads]
    cases m <;> first | rfl | cases known

theorem scan_changes (tidy : Tidy lines)
    (found : scan {} [] lines = some reduced) : ReflTransGen Change lines reduced.lines := by
  obtain ⟨middle, j, below, shape, reduces⟩ := scan_eq_some [] found
  rw [List.reverse_nil, List.nil_append] at shape
  rw [shape] at tidy ⊢
  exact reduceAt?_changes tidy reduces

theorem Stream.optimizeUpTo_changes (bound : Nat) (s : Stream) (tidy : Tidy s.lines) :
    ReflTransGen Change s.lines (s.optimizeUpTo bound).lines :=
  optimizeUpTo_keeps (P := fun t => ReflTransGen Change s.lines t.lines)
    (fun _ _ found changes => changes.trans (scan_changes (tidy.changes changes) found)) bound s
    .refl

/--
Two points of runs, at the same place of the old lines and of the new ones. The states differ in
flags at most, a branch that is still there goes the same way, and the runs end together.
-/
structure Alongside (w : Surroundings) (lines new : List Line) (p q : Point) : Prop where
  /-- Stores, calls and returns are ahead of both, and so are labels. -/
  ahead : List.Forall₂ Thins p.rest q.rest
  cpu : State.UpToFlags p.cpu q.cpu
  branch : ∀ i rest m, q.rest = .instruction i :: rest → i.op.entry? = some m →
    m.isBranch = true → q.cpu.takes m = p.cpu.takes m
  ends : p.step? w lines = none ↔ q.step? w new = none

namespace Alongside

variable {w : Surroundings} {lines middle new : List Line} {p q r : Point}

theorem refl (w : Surroundings) (lines : List Line) (p : Point) : Alongside w lines lines p p where
  ahead := List.forall₂_same.mpr fun line _ => .same line
  cpu := .refl p.cpu
  branch _ _ _ _ _ _ := rfl
  ends := Iff.rfl

theorem trans (first : Alongside w lines middle p q) (second : Alongside w middle new q r) :
    Alongside w lines new p r where
  ahead := by
    have chain {a b c : List Line} (one : List.Forall₂ Thins a b) (two : List.Forall₂ Thins b c) :
        List.Forall₂ Thins a c := by
      induction one generalizing c with
      | nil =>
        cases two
        exact .nil
      | cons head _ ih =>
        cases two with
        | cons next others => exact .cons (head.trans next) (ih others)
    exact chain first.ahead second.ahead
  cpu := first.cpu.trans second.cpu
  branch i rest m here entry branches := by
    have ahead := second.ahead
    rw [here] at ahead
    obtain ⟨line, others, thins, -, between⟩ := List.forall₂_cons_right_iff.mp ahead
    cases thins with
    | same =>
      exact (second.branch i rest m here entry branches).trans
        (first.branch i others m between entry branches)
    | jump =>
      cases entry
      cases branches
  ends := first.ends.trans second.ends

end Alongside

theorem Parallel.alongside {p q : Point}
    (blind : w.IsBlind) (whole : Swaps lines [] lines new) (tabled : Tabled lines)
    (parallel : Parallel w lines new p q) : Alongside w lines new p q where
  ahead := by
    obtain ⟨before, swaps, -⟩ := parallel.swaps
    exact swaps.thins
  cpu := parallel.blurs.alike
  branch i rest m here entry branches := by
    refine parallel.blurs.alike.takes fun f reads => parallel.blurs.flags f ?_
    rw [here]
    refine .here ?_
    rw [Line.reads, entry]
    exact reads
  ends := by
    rcases parallel.step blind whole tabled with ⟨ends, stops⟩ | ⟨_, _, step, along, -⟩
    · rw [ends, stops]
    · simp [step, along]

theorem alongside_of_changes (blind : w.IsBlind)
    (tabled : Tabled lines) (changes : ReflTransGen Change lines new) (cpu : State) (n : Nat) :
    Alongside w lines new ((⟨lines, cpu⟩ : Point).after w lines n)
      ((⟨new, cpu⟩ : Point).after w new n) := by
  induction changes with
  | refl => exact .refl w lines _
  | @tail middle new earlier change ih =>
    have whole := change.swaps
    have built := tabled.changes earlier
    exact ih.trans (((Parallel.start whole built cpu).after blind whole built n).alongside blind
      whole built)

/-- The run through an optimized tidy stream goes along with the run through the stream. -/
theorem Stream.optimize_alongside {w : Surroundings} {s : Stream} (blind : w.IsBlind)
    (tabled : Tabled s.lines) (tidy : Tidy s.lines) (cpu : State) (n : Nat) :
    Alongside w s.lines s.optimize.lines ((⟨s.lines, cpu⟩ : Point).after w s.lines n)
      ((⟨s.optimize.lines, cpu⟩ : Point).after w s.optimize.lines n) :=
  alongside_of_changes blind tabled (s.optimizeUpTo_changes _ tidy) cpu n

/-- Surroundings in which a call does nothing but set the flags. -/
def flagSetting : Surroundings where
  address name := if name = "u" then 0x200 else 0x201
  verbatim _ s := some s
  call _ s := some ((s.withSigns false false).withCarry false)

theorem flagSetting_isBlind : flagSetting.IsBlind := by
  intro label s t alike
  change some _ = some _
  rw [alike]
  rfl

def loadedTwice : Stream where
  name := "twice"
  lines := [.instruction ⟨.known .ldx, .immediate, "#3", 2, 0, 2, false⟩,
    .instruction ⟨.known .stx, .absolute, "v", 4, 0, 3, false⟩,
    .instruction ⟨.known .ldx, .immediate, "#3", 2, 0, 2, false⟩,
    .instruction ⟨.known .cpx, .immediate, "#3", 2, 0, 2, false⟩,
    .instruction (.branch .beq ".same"), .instruction ⟨.known .rts, .implied, "", 6, 0, 1, false⟩,
    .label ".same", .instruction ⟨.known .rts, .implied, "", 6, 0, 1, false⟩]

theorem not_reads_of_rts {f : Flag} (returns : i.op = .known .rts) :
    ¬Reads f lines (.instruction i :: rest) := by
  intro reads
  cases reads with
  | here reads =>
    rw [Line.reads, returns] at reads
    cases f <;> cases reads
  | next passes =>
    rw [Line.passes, returns] at passes
    cases passes
  | jump goes =>
    rw [Line.goesTo, Instruction.steers, returns] at goes
    cases goes

/-- The flags of the only compare are dead, whether its branch is taken or not. -/
theorem loadedTwice_settled :
    Settled loadedTwice.lines (.branch .beq ".same") (loadedTwice.lines.drop 5) := by
  refine fun f => ⟨not_reads_of_rts rfl, ?_⟩
  intro found target reads
  have here : fromLabel? ".same" loadedTwice.lines = some (loadedTwice.lines.drop 6) := by
    decide +kernel
  cases here.symm.trans target
  cases reads with
  | here reads => cases reads
  | next _ later => exact not_reads_of_rts rfl later
  | jump goes => cases goes

theorem loadedTwice_tidy : Tidy loadedTwice.lines where
  apart := by decide +kernel
  settled before below i j above cut nearest decides quiet := by
    have branches : j.isEquality = true := by
      simp only [Instruction.decides, Bool.and_eq_true] at decides
      exact decides.1.2
    have others : ∀ line ∈ loadedTwice.lines.take 4 ++ loadedTwice.lines.drop 5,
        line.instruction?.any (·.isEquality) = false := by decide +kernel
    have elsewhere (inside : .instruction j ∈
        loadedTwice.lines.take 4 ++ loadedTwice.lines.drop 5) :
        False := by
      have other := others _ inside
      rw [Line.instruction?, Option.any_some, branches] at other
      cases other
    have shape : (loadedTwice.lines.take 4).reverse.reverse ++
        .instruction (.branch .beq ".same") :: loadedTwice.lines.drop 5 = loadedTwice.lines := rfl
    rcases places (shape.trans cut) with ⟨rfl, here, rfl⟩ | ⟨gap, rfl, same⟩ | ⟨gap, same, rfl⟩
    · cases here
      exact loadedTwice_settled
    · refine (elsewhere (List.mem_append_left _ ?_)).elim
      rw [← List.mem_reverse, same]
      simp
    · refine (elsewhere (List.mem_append_right _ ?_)).elim
      rw [same]
      simp

theorem loadedTwice_alongside : loadedTwice.optimize.removed = 2 ∧ ∀ (cpu : State) (n : Nat),
    Alongside flagSetting loadedTwice.lines loadedTwice.optimize.lines
      ((⟨loadedTwice.lines, cpu⟩ : Point).after flagSetting loadedTwice.lines n)
      ((⟨loadedTwice.optimize.lines, cpu⟩ : Point).after flagSetting loadedTwice.optimize.lines
        n) :=
  ⟨by decide +kernel, fun cpu n => Stream.optimize_alongside flagSetting_isBlind (by decide +kernel)
    loadedTwice_tidy cpu n⟩

/-- If runs through two lists of lines both end, they leave the same bytes in memory. -/
def EndAlike (w : Surroundings) (lines new : List Line) : Prop :=
  ∀ (cpu : State) (n : Nat),
    ((⟨lines, cpu⟩ : Point).after w lines n).step? w lines = none →
    ((⟨new, cpu⟩ : Point).after w new n).step? w new = none →
    ∀ address, ((⟨new, cpu⟩ : Point).after w new n).cpu.read address =
      ((⟨lines, cpu⟩ : Point).after w lines n).cpu.read address

/-- Stores what is on the stack, and then the carry of a compare. -/
def storedCarry : Stream where
  name := "carry"
  lines := [.instruction ⟨.known .pla, .implied, "", 4, 0, 1, false⟩,
    .instruction ⟨.known .pha, .implied, "", 3, 0, 1, false⟩,
    .instruction ⟨.known .sta, .absolute, "u", 4, 0, 3, false⟩,
    .instruction ⟨.known .ldx, .immediate, "#5", 2, 0, 2, false⟩,
    .instruction ⟨.known .cpx, .immediate, "#5", 2, 0, 2, false⟩,
    .instruction (.branch .bne ".end"),
    .instruction ⟨.known .lda, .immediate, "#0", 2, 0, 2, false⟩,
    .instruction ⟨.known .adc, .immediate, "#0", 2, 0, 2, false⟩,
    .instruction ⟨.known .sta, .absolute, "v", 4, 0, 3, false⟩,
    .label ".end", .instruction ⟨.known .rts, .implied, "", 6, 0, 1, false⟩]

/-- A stream that is not tidy can come to store other values. -/
theorem not_endAlike_optimize :
    ¬ ∀ (w : Surroundings) (s : Stream), w.IsBlind → Tabled s.lines →
      (∀ text, .verbatim text ∉ s.lines) → s.labels.Nodup →
      (∀ i ∈ s.instructions, i.steers = true → i.operand ∈ s.labels) →
      EndAlike w s.lines s.optimize.lines := by
  intro always
  have alike := always flagSetting storedCarry flagSetting_isBlind (by decide +kernel)
    (by simp [storedCarry]) (by decide +kernel) (by decide +kernel)
  -- The pull is gone whose value was stored, and the compare whose carry was added.
  have pulled := alike { a := 1 } 11 (by decide +kernel) (by decide +kernel) 0x200
  have added := alike { a := 1 } 11 (by decide +kernel) (by decide +kernel) 0x201
  exact absurd (And.intro pulled added) (by decide +kernel)

end Backend6502.Code

namespace Backend6502

open Symbols (Table)
open Source (Block Expr Stmt)

namespace Machine

/-- Steps come to the halt once, however many are allowed. -/
theorem stepsUpTo_unique {halt : UInt16} {bound other steps : Nat} {cpu : Cpu.State}
    (ends : (stepsUpTo halt bound steps cpu).2.pc = halt)
    (alsoEnds : (stepsUpTo halt other steps cpu).2.pc = halt) :
    stepsUpTo halt bound steps cpu = stepsUpTo halt other steps cpu := by
  induction bound generalizing other steps cpu with
  | zero => exact (stepsUpTo_of_halted halt other steps cpu ends).symm
  | succ bound ih =>
    cases other with
    | zero => exact stepsUpTo_of_halted halt (bound + 1) steps cpu alsoEnds
    | succ other =>
      rw [stepsUpTo] at ends alsoEnds ⊢
      rw [stepsUpTo]
      split
      · rfl
      · next moves =>
        rw [if_neg moves] at ends alsoEnds
        exact ih ends alsoEnds

def started (m : Machine) : Cpu.State :=
  { m.cpu with pc := Symbols.codeStart }

theorem stepsUpTo_of_run {m m' : Machine} {limit : Int64} (ran : m.run limit = (m', none)) :
    m'.addresses = m.addresses ∧ m'.cpu.pc = m.halt ∧
      m'.cpu = (stepsUpTo m.halt limit.toInt.toNat 0 m.started).2 := by
  unfold run at ran
  obtain ⟨rfl, ends⟩ := Prod.mk.inj ran
  refine ⟨rfl, ?_, rfl⟩
  dsimp only at ends ⊢
  split at ends
  · assumption
  · cases ends

theorem run_unique {m m' m'' : Machine} {limit other : Int64} (ran : m.run limit = (m', none))
    (alsoRan : m.run other = (m'', none)) : m'.addresses = m''.addresses ∧ m'.cpu = m''.cpu := by
  obtain ⟨places, ends, cpu⟩ := stepsUpTo_of_run ran
  obtain ⟨alsoPlaces, alsoEnds, alsoCpu⟩ := stepsUpTo_of_run alsoRan
  rw [cpu] at ends
  rw [alsoCpu] at alsoEnds
  rw [cpu, alsoCpu, stepsUpTo_unique ends alsoEnds]
  exact ⟨places.trans alsoPlaces.symm, rfl⟩

/-- The machine with other bytes of variables: a name, the offset of the byte and the byte. -/
def pokes (m : Machine) (bytes : List (String × Int64 × UInt8)) : Machine :=
  bytes.foldl (fun m byte => m.poke byte.1 byte.2.1 byte.2.2) m

end Machine

/-- Two machines hold the same bytes in all variables. -/
def SameVariables (t : Table) (m m' : Machine) : Prop :=
  ∀ v ∈ t.vars, v.isConst = false → ∀ offset, 0 ≤ offset → offset < v.size →
    m.peek v.name offset = m'.peek v.name offset

/-- Single variables that the layout places: no arrays, no pointers and no fixed addresses. -/
def hasPlainVariables (t : Table) : Bool :=
  t.vars.all fun v => v.length == 0 && !v.pointer && v.address == 0

/-- No statement of a function is assembler text. -/
def hasNoText (t : Table) : Bool :=
  let texts : Stmt → List String
    | .asm _ text => [text]
    | _ => []
  t.functions.all fun f => f.body.all fun block => (block.toStmt.collect texts).isEmpty

/-- Does `w = u + ((X = 5) == 5 ? 1 : 2)` for two words. -/
def choiceBody : Block where
  loc := {}
  body :=
    let var (name : String) : Expr := .var name .absent
    let chosen : Expr := .binary .choice
      (.binary .eq (.binary .assign (var "X") (.int 5)) (.int 5)) (.binary .arms (.int 1) (.int 2))
    [.expr {} (.binary .assign (var "w") (.binary .add (var "u") chosen))]

def choiceProgram : Table where
  vars := [{ name := "u", size := 2 }, { name := "w", size := 2 }]
  functions := [{ name := "main", body := some choiceBody }]

/-- Compiles and loads the program, and runs it with 1 in `u`. -/
def choiceRun? (level : Int64) : Option (Compiled × Machine × Machine) :=
  match (compile choiceProgram level).2 with
  | .error _ => none
  | .ok c =>
    match Machine.load c choiceProgram with
    | .error _ => none
    | .ok m =>
      match (m.pokes [("u", 0, 1)]).run 100 with
      | (ended, none) => some (c, m, ended)
      | (_, some _) => none

theorem choice_ends (level : Int64) (high : UInt8)
    (evaluated : (choiceRun? level).map (·.2.2.peek "w" 1) = some high) :
    ∃ c m ended, (compile choiceProgram level).2 = .ok c ∧ Machine.load c choiceProgram = .ok m ∧
      (m.pokes [("u", 0, 1)]).run 100 = (ended, none) ∧ ended.peek "w" 1 = high := by
  obtain ⟨⟨c, m, ended⟩, found, value⟩ := Option.map_eq_some_iff.mp evaluated
  unfold choiceRun? at found
  split at found
  · cases found
  next c compiled =>
    split at found
    · cases found
    next m loaded =>
      split at found
      · next ended ran =>
        cases found
        exact ⟨c, m, ended, compiled, loaded, ran, value⟩
      · cases found

/-- The level can change what a program leaves in its variables. -/
theorem level_changes_variables :
    ¬ ∀ (t : Table) (c₀ c₁ : Compiled) (m₀ m₁ ended₀ : Machine) (limit₀ : Int64)
        (bytes : List (String × Int64 × UInt8)),
      hasNoText t = true → hasPlainVariables t = true → (compile t 0).2 = .ok c₀ →
      (compile t 1).2 = .ok c₁ → Machine.load c₀ t = .ok m₀ → Machine.load c₁ t = .ok m₁ →
      (m₀.pokes bytes).run limit₀ = (ended₀, none) →
        ∃ ended₁ limit₁, (m₁.pokes bytes).run limit₁ = (ended₁, none) ∧
          SameVariables t ended₀ ended₁ := by
  intro always
  -- The sum takes its carry from a compare that level 1 removes.
  obtain ⟨c₀, m₀, ended₀, compiled₀, loaded₀, ran₀, high₀⟩ := choice_ends 0 1 (by decide +kernel)
  obtain ⟨c₁, m₁, ended₁, compiled₁, loaded₁, ran₁, high₁⟩ := choice_ends 1 0 (by decide +kernel)
  obtain ⟨other, limit, ran, same⟩ := always _ c₀ c₁ m₀ m₁ ended₀ 100 _ (by decide) (by decide)
    compiled₀ compiled₁ loaded₀ loaded₁ ran₀
  have equal := same { name := "w", size := 2 } (by simp [choiceProgram]) rfl 1 (by decide)
    (by decide)
  obtain ⟨places, cpu⟩ := Machine.run_unique ran ran₁
  have moved : other.peek "w" 1 = ended₁.peek "w" 1 := by
    rw [Machine.peek, Machine.addressOf, places, cpu]
    rfl
  exact absurd (high₀.symm.trans (equal.trans (moved.trans high₁))) (by decide)

end Backend6502
