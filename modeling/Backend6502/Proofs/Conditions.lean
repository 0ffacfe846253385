import Backend6502.Proofs.Comparisons
import Backend6502.Proofs.SafeExpressions

/-!
# Conditions

Comparisons that are joined and negated are answered one after the other. By induction on the
condition, its code jumps to a label if the condition is true, or if it is not, as was asked, and
otherwise runs past its end. The index registers, the stack pointer and the memory are as they were,
except for the scratch cell.

For that nothing may have been put off before the test, since a comparison does what was put off.
And a byte that the test reads must not lie in the scratch cell, where a register goes that is
compared with another one.
-/

namespace Backend6502.Lowering

open Cpu (State)
open Source (Op Expr Bytes)
open Symbols (Table)

variable {G : Ground} {L : Listing} {label : String} {one other : State → Bool} {c d : Context}
  {u : Unit} {lhs rhs : Lowered}

section Joining

variable {e : Context}

theorem Decides.either (first : Decides G L label one c d) (second : Decides G L label other d e) :
    Decides G L label (fun s => one s || other s) c e where
  lays := first.lays.trans second.lays
  taken laid s jumps := by
    have laidHere := second.lays.holds laid
    cases begins : one s with
    | true => exact first.taken laidHere s begins
    | false =>
      rw [begins, Bool.false_or] at jumps
      exact (first.passed laidHere s begins).escapes (second.taken laid s jumps)
  passed laid s stays := by
    have laidHere := second.lays.holds laid
    obtain ⟨begins, ends⟩ := Bool.or_eq_false_iff.mp stays
    exact (first.passed laidHere s begins).trans (second.passed laid s ends)

theorem Decides.unless (ready : Ready L c)
    (first : Decides G L (Label.pastCond (c.ifCount + 1)).text one c.countIf d)
    (second : Decides G L label other d e) :
    Decides G L label (fun s => !one s && other s) c
      (e.labelled (Label.pastCond (c.ifCount + 1)).text) := by
  have last := Lays.label e (Label.pastCond (c.ifCount + 1)).text
  have both := first.lays.trans second.lays
  have lays := Lays.openedIf [.pastCond (c.ifCount + 1)] (by simp)
    (by simp [Label.Within, Context.countIf]) (both.trans last)
  have readyHere : Ready L c.countIf := ready.of_eq rfl rfl rfl
  have fresh := (readyHere.after both).fresh
  refine ⟨lays, fun laid s jumps => ?_, fun laid s stays => ?_⟩
  · have laidSecond := last.holds laid
    have laidFirst := second.lays.holds laidSecond
    obtain ⟨skips, ends⟩ := Bool.and_eq_true_iff.mp jumps
    have passes : one s = false := by simpa using skips
    exact (first.passed laidFirst s passes).escapes (second.taken laidSecond s ends)
  · have laidSecond := last.holds laid
    have laidFirst := second.lays.holds laidSecond
    cases begins : one s with
    | true => exact (first.taken laidFirst s begins).lands fresh laid
    | false =>
      rw [begins, Bool.not_false, Bool.true_and] at stays
      have ends := (first.passed laidFirst s begins).trans (second.passed laidSecond s stays)
      intro t known
      obtain ⟨v, steps, after⟩ := (ends.trans (.pastLabel laid _)) t known
      exact ⟨v, steps, after.near, trivial⟩

theorem decides_known {b : Bool} {scope : Scope}
    (ok : (if b = true then emitJump label else pure ()) scope c = .ok u d) :
    Decides G L label (fun _ => b) c d := by
  cases b with
  | true =>
    cases emitJump_eq_ok ok
    refine ⟨.steered c _, fun laid s _ t known => ?_, fun _ _ => nofun⟩
    exact Escapes.byJump laid (Known G s .unknown) t ⟨known.near, trivial⟩
  | false =>
    cases ok
    exact ⟨.nothing c, fun _ _ => nofun, fun _ s _ => .refl c _⟩

end Joining

section Truth

variable {table : Table} {op : Op} {l r : Expr}

theorem truth_ne_zero (b : Bool) : (truth b != 0) = b := by
  cases b <;> rfl

theorem isTest_binary (isTest : (Expr.binary op l r).isTest table = true) :
    (op.isCompare = true ∧ l.isOperand table = true ∧ r.isOperand table = true) ∨
      ((op = .logAnd ∨ op = .logOr) ∧ l.isTest table = true ∧ r.isTest table = true) := by
  rw [Expr.isTest] at isTest
  split at isTest
  · next compares => exact .inl ⟨compares, Bool.and_eq_true_iff.mp isTest⟩
  · simp only [Bool.and_eq_true, Bool.or_eq_true, beq_iff_eq] at isTest
    exact .inr ⟨isTest.1.1, isTest.1.2, isTest.2⟩

section

variable (compares : op.isCompare = true)

include compares

theorem fold_compares (a b : Int64) : fold op a b = .ok (truth (op.orders a b)) := by
  cases op with
  | lt | gt | le | ge | eq | ne => rfl
  | _ => cases compares

theorem isTrue_constants {a b : Int64}
    (left : constant? table l = some a) (right : constant? table r = some b) (β : Bytes) :
    (Expr.binary op l r).isTrue table β = op.orders a b := by
  cases op with
  | lt | gt | le | ge | eq | ne => simp only [Expr.isTrue, left, right]
  | _ => cases compares

theorem isTrue_bytes (varies : constant? table l = none ∨ constant? table r = none) (β : Bytes) :
    (Expr.binary op l r).isTrue table β =
      op.compares (lowByte (l.asNumber table β)) (lowByte (r.asNumber table β)) := by
  cases op with
  | lt | gt | le | ge | eq | ne =>
    rcases varies with varies | varies
    · simp only [Expr.isTrue, varies]
    · simp only [Expr.isTrue, varies]
      cases constant? table l <;> rfl
  | _ => cases compares

/-- A comparison that is not known in advance has an operand that is not. -/
theorem varies_of_unknown (unknown : constant? table (.binary op l r) = none) :
    constant? table l = none ∨ constant? table r = none := by
  cases left : constant? table l with
  | none => exact .inl rfl
  | some a =>
    cases right : constant? table r with
    | none => exact .inr rfl
    | some b =>
      cases op with
      | lt | gt | le | ge | eq | ne =>
        simp [constant?, left, right, Op.isAssign, Op.compound?, fold, Except.toOption] at unknown
      | _ => cases compares

end

/-- A test that is known in advance is true exactly if it is not zero. -/
theorem constant?_test (β : Bytes) : ∀ {e : Expr}, e.isTest table = true → ∀ {n : Int64},
    constant? table e = some n → (n != 0) = e.isTrue table β
  | .binary op l r, isTest, n, fixed => by
      rcases isTest_binary isTest with ⟨compares, -⟩ | ⟨joins, isLeft, isRight⟩
      · have plain : op ≠ .choice := by
          rintro rfl
          cases compares
        obtain ⟨a, b, left, right, folds⟩ := constant?_binary plain fixed
        rw [fold_compares compares] at folds
        cases folds
        rw [isTrue_constants compares left right, truth_ne_zero]
      · have plain : op ≠ .choice := by
          rintro rfl
          simp at joins
        obtain ⟨a, b, left, right, folds⟩ := constant?_binary plain fixed
        have holdsL := constant?_test β isLeft left
        have holdsR := constant?_test β isRight right
        rcases joins with rfl | rfl
        · cases folds
          rw [Expr.isTrue, truth_ne_zero, holdsL, holdsR]
        · cases folds
          rw [Expr.isTrue, truth_ne_zero, holdsL, holdsR]
  | .unary op e, isTest, n, fixed => by
      obtain ⟨isNot, isOperand⟩ := Bool.and_eq_true_iff.mp isTest
      cases beq_iff_eq.mp isNot
      cases inner : constant? table e with
      | none =>
        rw [constant?, inner] at fixed
        cases fixed
      | some a =>
        rw [constant?, inner] at fixed
        cases fixed
        rw [truth_ne_zero, Expr.isTrue, ← constant?_test β isOperand inner, bne, Bool.not_not]

end Truth

section Trees

variable {negate : Bool}

def trueIn (G : Ground) (e : Expr) (s : State) : Bool :=
  e.isTrue G.table (bytesOf G.w G.table s)

/-- A test that is not carried out if its outcome is known in advance. -/
theorem decides_unlessConstant {e : Expr} {test : Test} (isTest : e.isTest G.table = true)
    (tests : constant? G.table e = none → test label negate G.scope c = .ok u d →
      Decides G L label (fun s => trueIn G e s != negate) c d)
    (ok : unlessConstant e test label negate G.scope c = .ok u d) :
    Decides G L label (fun s => trueIn G e s != negate) c d := by
  obtain ⟨known, _, ⟨⟩, ok⟩ := bind_inv ok
  cases fixed : constant? G.table e with
  | none =>
    rw [fixed] at ok
    exact tests fixed ok
  | some n =>
    rw [fixed] at ok
    have known : Decides G L label _ c d := decides_known ok
    simp only [trueIn, ← constant?_test _ isTest fixed]
    exact known

section

variable (ready : Ready L c)
  (first : ∀ {label negate c d}, Ready L c → lhs.test label negate G.scope c = .ok () d →
    Decides G L label (fun s => one s != negate) c d)
  (second : ∀ {label negate c d}, Ready L c → rhs.test label negate G.scope c = .ok () d →
    Decides G L label (fun s => other s != negate) c d)

include ready first second

theorem decides_bothTests (ok : bothTests lhs rhs label negate G.scope c = .ok u d) :
    Decides G L label (fun s => (one s != negate) && (other s != negate)) c d := by
  obtain ⟨n, _, counts, ok⟩ := bind_inv ok
  obtain ⟨rfl, rfl⟩ := nextIf_eq_ok counts
  obtain ⟨_, between, begins, ok⟩ := bind_inv ok
  obtain ⟨_, after, ends, ok⟩ := bind_inv ok
  cases putLabel_eq_ok ok
  have readyHere : Ready L c.countIf := ready.of_eq rfl rfl rfl
  have left := first readyHere begins
  have right := second (readyHere.after left.lays) ends
  have joined := left.unless ready right
  have same (s : State) : (!(one s != !negate) && (other s != negate)) =
      ((one s != negate) && (other s != negate)) := by
    cases one s <;> cases negate <;> rfl
  simp only [same] at joined
  exact joined

theorem decides_eitherTest (ok : eitherTest lhs rhs label negate G.scope c = .ok u d) :
    Decides G L label (fun s => (one s != negate) || (other s != negate)) c d := by
  obtain ⟨_, between, begins, ok⟩ := bind_inv ok
  have left := first ready begins
  exact left.either (second (ready.after left.lays) ok)

end

theorem decides_lower : ∀ {e : Expr}, e.isTest G.table = true →
    (∀ p ∈ e.cells G.table, G.cells p.1 p.2) →
    ∀ {label : String} {negate : Bool} {c d : Context}, Ready L c →
      (lower e).test label negate G.scope c = .ok () d →
        Decides G L label (fun s => trueIn G e s != negate) c d
  | .binary op l r, isTest, reads, label, negate, c, d, ready, ok => by
      have noShift : op ≠ .shl := by
        rintro rfl
        cases isTest
      rw [Expr.cells_binary noShift] at reads
      rcases isTest_binary isTest with ⟨compares, isLeft, isRight⟩ | ⟨joins, isLeft, isRight⟩
      · have whole : (lower (.binary op l r)).test = unlessConstant
            (.binary op (lower l).expr (lower r).expr)
            (compare op (lower l).toOperand (lower r).toOperand) := by
          cases op with
          | lt | gt | le | ge | eq | ne => rfl
          | _ => cases compares
        rw [whole, expr_lower, expr_lower] at ok
        refine decides_unlessConstant isTest (fun unknown ok => ?_) ok
        have varies := varies_of_unknown compares unknown
        simp only [trueIn, isTrue_bytes compares varies]
        exact decides_compare compares isLeft isRight reads varies ready ok
      · have first {label negate c d} := @decides_lower l isLeft
          (fun p inside => reads p (List.mem_append_left _ inside)) label negate c d
        have second {label negate c d} := @decides_lower r isRight
          (fun p inside => reads p (List.mem_append_right _ inside)) label negate c d
        rcases joins with rfl | rfl
        · change unlessConstant (.binary .logAnd (lower l).expr (lower r).expr) _ _ _ _ _ = _ at ok
          rw [expr_lower, expr_lower] at ok
          refine decides_unlessConstant isTest (fun _ ok => ?_) ok
          cases negate with
          | true =>
            have either := decides_eitherTest ready first second ok
            simpa [trueIn, Expr.isTrue] using either
          | false =>
            have both := decides_bothTests ready first second ok
            simpa [trueIn, Expr.isTrue] using both
        · change unlessConstant (.binary .logOr (lower l).expr (lower r).expr) _ _ _ _ _ = _ at ok
          rw [expr_lower, expr_lower] at ok
          refine decides_unlessConstant isTest (fun _ ok => ?_) ok
          cases negate with
          | true =>
            have both := decides_bothTests ready first second ok
            simpa [trueIn, Expr.isTrue] using both
          | false =>
            have either := decides_eitherTest ready first second ok
            simpa [trueIn, Expr.isTrue] using either
  | .unary op e, isTest, reads, label, negate, c, d, ready, ok => by
      obtain ⟨isNot, isOperand⟩ := Bool.and_eq_true_iff.mp isTest
      cases beq_iff_eq.mp isNot
      change unlessConstant (.unary .not (lower e).expr)
        (fun label negate => (lower e).test label (!negate)) label negate G.scope c = _ at ok
      rw [expr_lower] at ok
      refine decides_unlessConstant isTest (fun _ ok => ?_) ok
      have decides : Decides G L label _ c d := decides_lower isOperand reads ready ok
      simpa [trueIn, Expr.isTrue] using decides

end Trees

open Code (Line Surroundings Steps Point labelNames)
open Cpu (Memory)

/--
A run through the code of a test leaves it by a jump to a label or past its end, as was asked.
-/
structure Answers (w : Surroundings) (table : Table) (e : Expr) (label : String) (negate : Bool)
    (code : List Line) (s : State) : Prop where
  jumps : (e.isTrue table (bytesOf w table s) != negate) = true → ∃ line rest t,
    Steps w code ⟨code, s⟩ ⟨line :: rest, t⟩ ∧ line.flow w t = .jump label ∧
      (⟨line :: rest, t⟩ : Point).step? w code = none ∧ Untouched w s t
  passes : (e.isTrue table (bytesOf w table s) != negate) = false → ∃ t,
    Steps w code ⟨code, s⟩ ⟨[], t⟩ ∧ Untouched w s t

/-- All bytes of variables that lie apart from the scratch cell. -/
def testGround (w : Surroundings) {scope : Scope} (defined : scope.symbols.Defined) : Ground where
  w := w
  scope := scope
  cells name offset := cellAddress w scope.symbols name offset ≠ scratchAddress w
  starts _ := True
  arithmetic := False
  registers_free := Scope.registers_free defined
  scratch_apart _ _ := id
  stack_apart := False.elim
  binary := False.elim

section Fragments

variable {w : Surroundings} {scope : Scope} {e : Expr} {label : String} {negate : Bool}
  {c d : Context}
variable {defined : scope.symbols.Defined} {s : State} {code : List Line}

theorem Near.untouched {t : State} (near : Near (testGround w defined) s t) : Untouched w s t where
  x := near.x
  y := near.y
  sp := near.sp
  decimal := near.decimal
  memory address noScratch := near.memory address fun spare =>
    spare.elim noScratch fun ⟨never, _⟩ => never

/-- The lines that a context adds to another one are a listing of their own. -/
theorem Listing.lines_added (added : d.code = c.code ++ code) :
    (Listing.mk d.code c.code.length).lines = code ∧
      (Listing.mk d.code c.code.length).ahead c = code ∧
        (Listing.mk d.code c.code.length).ahead d = [] := by
  refine ⟨?_, ?_, List.drop_length⟩
  · rw [lines, added, List.drop_left]
  · rw [ahead, added, List.drop_left]

theorem Decides.answers (decides : Decides (testGround w defined) ⟨d.code, c.code.length⟩ label
      (fun s => trueIn (testGround w defined) e s != negate) c d) (added : d.code = c.code ++ code)
    (outside : label ∉ labelNames code) (shown : c.flags.Shown (testGround w defined) s) :
    Answers w scope.symbols e label negate code s := by
  obtain ⟨whole, begins, ends⟩ := Listing.lines_added added
  have known : Known (testGround w defined) s c.flags s := ⟨.refl trivial, shown⟩
  refine ⟨fun jumps => ?_, fun stays => ?_⟩
  · obtain ⟨line, rest, t, steps, leaves, after⟩ :=
      decides.taken (List.prefix_refl _) s jumps s known
    rw [whole, begins] at steps
    have absent : Code.fromLabel? label code = none := Code.fromLabel?_eq_none.mpr outside
    refine ⟨line, rest, t, steps, leaves, ?_, after.near.untouched⟩
    have jumps : line.flow w t = .jump label := leaves
    simp only [Point.step?, jumps, absent, Option.map_none]
  · obtain ⟨t, steps, after⟩ := decides.passed (List.prefix_refl _) s stays s known
    rw [whole, begins, ends] at steps
    exact ⟨t, steps, after.near.untouched⟩

/-- The code of a test answers the test, from every state that the flags are known of. -/
theorem test_answers (defined : scope.symbols.Defined) (isTest : e.isTest scope.symbols = true)
    (apart : ∀ p ∈ e.cells scope.symbols, cellAddress w scope.symbols p.1 p.2 ≠ scratchAddress w)
    (free : c.accInUse = false) (none : c.deferred = []) :
    Ensures ((lower e).test label negate) scope c fun _ d =>
      ∃ code, d.code = c.code ++ code ∧ (label ∉ labelNames code →
        ∀ s, c.flags.Shown (testGround w defined) s →
          Answers w scope.symbols e label negate code s) := by
  refine ensures_test fun _ d ok => ?_
  have decides (L : Listing) (fresh : L.Fresh c) : Decides (testGround w defined) L label _ c d :=
    decides_lower (G := testGround w defined) isTest apart ⟨fresh, free, none⟩ ok
  -- How the code is laid out does not depend on the listing, so that of no lines will do here.
  have lays := (decides _ (Listing.fresh_nil c)).lays
  obtain ⟨code, added⟩ := lays.grows
  refine ⟨code, added.symm, fun outside s shown => ?_⟩
  exact (decides _ (lays.fresh (Nat.le_refl _))).answers added.symm outside shown

end Fragments

/-- Two bytes and a constant that does not fit a byte. -/
def fragmentScope : Scope where
  symbols := { vars := [{ name := "a", size := 1 },
    { name := "k", size := 1, isConst := true, value := 300 }, { name := "v", size := 1 }] }
  function := { name := "main" }

/-- The variables in memory, with `v` at an address of choice. -/
def fragmentPlaces (v : UInt16) : Surroundings where
  address
    | "a" => 0x200
    | "v" => v
    | _ => 0x80
  verbatim _ _ := none
  call _ _ := none

/-- In `a` is the lowest byte of the constant, and `X` is less than `Y`. -/
def fragmentStart : State where
  x := 3
  y := 9
  memory := ({} : Memory).write 0x200 44

theorem fragmentScope_defined : fragmentScope.symbols.Defined :=
  .of_entries rfl

/-- The test `a != 0 && !(X >= Y) && (k == a || 1000 < 300)`. -/
def mixedTest : Expr :=
  let var (name : String) : Expr := .var name .absent
  .binary .logAnd (.binary .ne (var "a") (.int 0))
    (.binary .logAnd (.unary .not (.binary .ge (var "X") (var "Y")))
      (.binary .logOr (.binary .eq (var "k") (var "a")) (.binary .lt (.int 1000) (.int 300))))

/-- The flags show `a`, which is not loaded; the test is true, and its code is left by a jump. -/
theorem mixedTest_answers : mixedTest.isTest fragmentScope.symbols = true ∧
      mixedTest.isTrue fragmentScope.symbols
        (bytesOf (fragmentPlaces 0x201) fragmentScope.symbols fragmentStart) = true ∧
      ∃ d line rest t,
        (lower mixedTest).test "out" false fragmentScope { flags := .cell "a" true 0 } = .ok () d ∧
          Steps (fragmentPlaces 0x201) d.code ⟨d.code, fragmentStart⟩ ⟨line :: rest, t⟩ ∧
          line.flow (fragmentPlaces 0x201) t = .jump "out" ∧
          Untouched (fragmentPlaces 0x201) fragmentStart t := by
  let w := fragmentPlaces 0x201
  let c : Context := { flags := .cell "a" true 0 }
  have isTest : mixedTest.isTest fragmentScope.symbols = true := by decide +kernel
  have isTrue : mixedTest.isTrue fragmentScope.symbols
      (bytesOf w fragmentScope.symbols fragmentStart) = true := by decide +kernel
  have apart : ∀ p ∈ mixedTest.cells fragmentScope.symbols,
      cellAddress w fragmentScope.symbols p.1 p.2 ≠ scratchAddress w := by decide +kernel
  have ensures := @test_answers w fragmentScope mixedTest "out" false c fragmentScope_defined isTest
    apart rfl rfl
  have goes : goesThrough ((lower mixedTest).test "out" false) fragmentScope c
      (fun d => !(labelNames d.code).contains "out") = true := by
    decide +kernel
  obtain ⟨d, ran, outside, answers⟩ := ensures.exists_code rfl goes
  have shown : c.flags.Shown (testGround w fragmentScope_defined) fragmentStart :=
    ⟨apart ("a", 0) (by decide +kernel), by decide +kernel, by decide +kernel⟩
  obtain ⟨line, rest, t, steps, leaves, -, same⟩ :=
    (answers (by simpa using outside) fragmentStart shown).jumps (by rw [isTrue]; rfl)
  exact ⟨isTest, isTrue, d, line, rest, t, ran, steps, leaves, same⟩

/--
Where a run through the code of a context has come to after a hundred steps, or has ended before.
-/
def fragmentEnd (v : UInt16) (d : Context) : Point :=
  Point.after (fragmentPlaces v) d.code 100 ⟨d.code, fragmentStart⟩

/-- What was put off is done by a comparison, and a variable changes. -/
theorem not_answers_with_deferred :
    ¬ ∀ (w : Surroundings) (scope : Scope) (defined : scope.symbols.Defined) (e : Expr)
        (label : String) (negate : Bool) (c d : Context) (code : List Line) (s : State),
      e.isTest scope.symbols = true →
      (∀ p ∈ e.cells scope.symbols, cellAddress w scope.symbols p.1 p.2 ≠ scratchAddress w) →
      c.accInUse = false →
      (lower e).test label negate scope c = .ok () d → d.code = c.code ++ code →
      label ∉ labelNames code → c.flags.Shown (testGround w defined) s →
        Answers w scope.symbols e label negate code s := by
  intro always
  let w := fragmentPlaces 0x201
  let e : Expr := .binary .eq (.var "v" .absent) (.int 0)
  let c : Context := { deferred := [{ target := .var "a" .absent, increments := true }] }
  have goes : goesThrough ((lower e).test "out" false) fragmentScope c (fun d =>
      !(labelNames d.code).contains "out" && ((fragmentEnd 0x201 d).step? w d.code).isNone &&
        (fragmentEnd 0x201 d).cpu.read 0x200 == 45) = true := by
    decide +kernel
  obtain ⟨_, d, ran, accepted⟩ := exists_of_goesThrough goes
  obtain ⟨both, value⟩ := Bool.and_eq_true_iff.mp accepted
  obtain ⟨outside, stops⟩ := Bool.and_eq_true_iff.mp both
  have answers := always w fragmentScope fragmentScope_defined e "out" false c d d.code
    fragmentStart
    (by decide +kernel) (by decide +kernel) rfl ran rfl (by simpa using outside) trivial
  obtain ⟨line, rest, t, steps, -, ends, same⟩ := answers.jumps (by decide +kernel)
  have meets := steps.unique ends (.after 100 _) (Option.isNone_iff_eq_none.mp stops)
  have kept := same.memory 0x200 (by decide +kernel)
  have changed : t = (fragmentEnd 0x201 d).cpu := congrArg Point.cpu meets
  rw [changed, eq_of_beq value] at kept
  exact absurd kept (by decide +kernel)

/--
A run through some code leaves it by a jump to a label, or past its end, and comes to a state.
-/
structure Departs (w : Surroundings) (label : String) (taken : Bool) (After : State → Prop)
    (code : List Line) (s : State) : Prop where
  jumps : taken = true → ∃ line rest t, Steps w code ⟨code, s⟩ ⟨line :: rest, t⟩ ∧
    line.flow w t = .jump label ∧ (⟨line :: rest, t⟩ : Point).step? w code = none ∧ After t
  passes : taken = false → ∃ t, Steps w code ⟨code, s⟩ ⟨[], t⟩ ∧ After t

variable {w : Surroundings} {scope : Scope} {label : String} {negate : Bool} {c d : Context}
  {u : Unit} {op : Op} {lhs rhs : Expr}

/-- Code that makes the flags give a verdict leads to the label or past its end by that verdict. -/
theorem departs_of_answers {m : Gen Op} {signed : Bool} (verdict : State → Bool)
    (Starts : State → Prop) (After : State → State → Prop)
    (answers : Emits w scope c m fun op _ g => op.isCompare = true ∧ ∀ s, Starts s →
      (g s).answersBy signed op = verdict s ∧ After s (g s))
    (ok : (m >>= fun op => branchOn (if negate then negated op else op) signed label) scope c =
      .ok u d) :
    ∃ code, d.code = c.code ++ code ∧ (label ∉ labelNames code → ∀ s, Starts s →
      Departs w label (verdict s != negate) (After s) code s) := by
  obtain ⟨op, e, g, does, ⟨first, added⟩, steps, branched⟩ := branched_of_answers answers ok
  have lays := (branched _ (Listing.fresh_nil e)).lays
  obtain ⟨second, whole⟩ := lays.grows
  have code : d.code = c.code ++ (first.map .instruction ++ second) := by
    rw [← whole, added, List.append_assoc]
  have begun : c.code.length ≤ e.code.length := by
    rw [added, List.length_append]
    exact Nat.le_add_right _ _
  have runs := (branched _ (lays.fresh begun)).runs (List.prefix_refl _)
  obtain ⟨lines, begins, ends⟩ := Listing.lines_added code
  refine ⟨_, code, fun outside s starts => ?_⟩
  obtain ⟨reply, after⟩ := does s starts
  have there := steps ⟨d.code, c.code.length⟩ lays.grows s
  rw [lines, begins] at there
  constructor
  · intro taken
    obtain ⟨line, rest, others, leaves⟩ := runs.taken (g s) (by rw [reply, taken])
    rw [lines] at others
    have absent := Code.fromLabel?_eq_none.mpr outside
    refine ⟨line, rest, g s, there.trans others, leaves, ?_, after⟩
    simp only [Point.step?, leaves, absent, Option.map_none]
  · intro stays
    have others := runs.passed (g s) (by rw [reply, stays])
    rw [lines, ends] at others
    exact ⟨g s, there.trans others, after⟩

/-- A comparison that is not known in advance is made where it stands. -/
theorem compare_of_test (compares : op.isCompare = true)
    (unknown : constant? scope.symbols (.binary op lhs rhs) = none)
    (ok : (lower (.binary op lhs rhs)).test label negate scope c = .ok u d) :
    compare op (lower lhs).toOperand (lower rhs).toOperand label negate scope c = .ok u d := by
  have tests : (lower (.binary op lhs rhs)).test =
      unlessConstant (.binary op (lower lhs).expr (lower rhs).expr)
        (compare op (lower lhs).toOperand (lower rhs).toOperand) := by
    cases op <;> first | rfl | cases compares
  rw [tests, expr_lower, expr_lower] at ok
  obtain ⟨read, _, ⟨⟩, ok⟩ := bind_inv ok
  rw [unknown] at ok
  exact ok

/-- A comparison is known in advance only if both of its sides are. -/
theorem constant?_compare {table : Table} (compares : op.isCompare = true)
    (unknown : constant? table lhs = none ∨ constant? table rhs = none) :
    constant? table (.binary op lhs rhs) = none := by
  cases known : constant? table (.binary op lhs rhs) with
  | none => rfl
  | some n =>
    have plain : op ≠ .choice := by
      rintro rfl
      cases compares
    obtain ⟨a, b, left, right, -⟩ := constant?_binary plain known
    rcases unknown with unknown | unknown
    · cases left.symm.trans unknown
    · cases right.symm.trans unknown

/-- The assignment `v = X == 0 ? a++ : 7`. -/
def steppingArm : Source.Stmt :=
  .expr {} (.binary .assign (.var "v" .absent) (.binary .choice
    (.binary .eq (.var "X" .absent) (.int 0))
    (.binary .arms (.incDec .postInc (.var "a" .absent)) (.int 7))))

/-- The arm that is not chosen is not run, but its `a++` waits for the end of the statement. -/
theorem unchosen_arm_steps : ∃ d t, stmt steppingArm fragmentScope {} = .ok () d ∧
      Steps (fragmentPlaces 0x201) d.code ⟨d.code, fragmentStart⟩ ⟨[], t⟩ ∧
        fragmentStart.x ≠ 0 ∧ t.read 0x201 = 7 ∧ t.read 0x200 ≠ fragmentStart.read 0x200 := by
  obtain ⟨_, d, t, ran, steps, ends⟩ := @exists_run_of_goesThrough _ (stmt steppingArm)
    (fragmentPlaces 0x201) fragmentScope {} fragmentStart
    (fun t => t.read 0x201 == 7 && t.read 0x200 == 45) 20 (by decide +kernel)
  obtain ⟨chosen, stepped⟩ := Bool.and_eq_true_iff.mp ends
  refine ⟨d, t, ran, steps, by decide, beq_iff_eq.mp chosen, ?_⟩
  rw [beq_iff_eq.mp stepped]
  decide +kernel

end Backend6502.Lowering
