import Backend6502.Proofs.ByteExpressions
import Backend6502.Proofs.SafeStatements

/-!
# Assignments and steps of bytes

A value is written to a register or to a byte of a variable, and nothing else is changed but what
code may write on its way. The code of `d = e`, where `e` is a term, leaves the lowest byte of the
number of `e` in `d`.

`++` and `--` add or subtract one. Before its operand such an operator does so where it stands;
behind its operand it is put off, and the code for all that was put off comes together. Either way a
step changes the byte that a name stands for and leaves the accumulator alone.
-/

namespace Backend6502.Lowering

open Code (Surroundings)
open Cpu (State Mnemonic)
open Source (Op Expr isCell isByteCell)
open Symbols (Table)

/-- The state after a byte has been written to a place. -/
def Place.put (w : Surroundings) (table : Table) (place : Place) (b : UInt8) (s : State) : State :=
  match place with
  | .x => { s with x := b }
  | .y => { s with y := b }
  | .cell name _ offset _ => s.write (cellAddress w table name offset) b
  | _ => s

/-- The byte at one place has been written to another. -/
structure Stored (G : Ground) (place value : Place) (c d : Context) (g : State → State) : Prop where
  context : ∃ code flags scratchInUse, d = { c with code, flags, scratchInUse }
  run : ∀ s, (place.put G.w G.table (value.byte G.w G.table s) s).Alike (g s)
  shown : G.Tracks place → ∀ s, c.flags.Shown G s → d.flags.Shown G (g s)

section Storing

variable {G : Ground} {c d : Context} {value : Place} {g : State → State}
variable {place : Place}

theorem Stored.intoIndex (index : place.isIndexRegister = true)
    (context : ∃ code scratchInUse, d = { c with code, flags := .ofPlace place, scratchInUse })
    (run : ∀ s : State, (place.put G.w G.table (value.byte G.w G.table s) s).Alike (g s) ∧
      (g s).Shows (place.byte G.w G.table (g s))) : Stored G place value c d g := by
  obtain ⟨code, scratchInUse, rfl⟩ := context
  refine ⟨⟨code, _, scratchInUse, rfl⟩, fun s => (run s).1, fun _ s _ => ?_⟩
  cases place with
  | x | y => exact (run s).2
  | _ => cases index

theorem emits_storeIndex (index : place.isIndexRegister = true) (isByte : value.IsByte G)
    (low : c.high = false) (free : value.isAccumulator = false → c.accInUse = false) :
    Emits G.w G.scope c (store place value) fun _ => Stored G place value c := by
  have loads {m : Mnemonic} (straight : m.isStraight = true) (direct : value.isDirect = true)
      (flags : c.flags.after m value = .ofPlace place)
      (sets : ∀ s : State, s.execute m (value.access G.w G.table) =
        (place.put G.w G.table (value.byte G.w G.table s) s).setNZ (value.byte G.w G.table s)) :
      Emits G.w G.scope c (emit m value) fun _ => Stored G place value c := by
    refine (Emits.emit straight direct low).mono fun _ d g ⟨⟨code, same⟩, run⟩ => ?_
    rw [flags] at same
    refine .intoIndex index ⟨code, _, same⟩ fun s => ?_
    rw [run, sets]
    cases place with
    | x | y => exact ⟨⟨rfl, rfl, rfl, rfl, rfl⟩, rfl, rfl⟩
    | _ => cases index
  have keeps (same : value = place) : Stored G place value c c id := by
    refine ⟨⟨c.code, c.flags, c.scratchInUse, rfl⟩, fun s => ?_, fun _ _ => id⟩
    rw [same]
    cases place with
    | x | y => exact .refl s
    | _ => cases index
  cases place with
  | x | y =>
    cases value with
    | immediate | scratch | cell =>
      first
      | exact loads (m := .ldx) rfl rfl rfl fun _ => rfl
      | exact loads (m := .ldy) rfl rfl rfl fun _ => rfl
    | accumulator =>
      refine (Emits.emitImplied rfl).mono fun _ d g ⟨⟨code, same⟩, run⟩ => ?_
      refine .intoIndex rfl ⟨code, _, same⟩ fun s => ?_
      rw [run]
      exact ⟨⟨rfl, rfl, rfl, rfl, rfl⟩, rfl, rfl⟩
    | nothing | indexedX | indexedY | label => exact isByte.elim
    | x | y =>
      first
      | exact .pure (keeps rfl)
      | refine .keepingA (free rfl) (.bind (.emitImplied rfl) fun _ d g ⟨⟨code, same⟩, run⟩ => ?_)
        cases same
        refine (Emits.emitImplied rfl).mono fun _ e h ⟨⟨others, same⟩, further⟩ => ?_
        refine .intoIndex rfl ⟨others, _, same⟩ fun s => ?_
        rw [Function.comp_apply, further, run]
        exact ⟨⟨rfl, rfl, rfl, rfl, rfl⟩, rfl, rfl⟩
  | _ => cases index

/-- A byte of a variable is written through a register. -/
theorem emits_storeMemory (name : String) (is8Bit : Bool) (offset : Int64) (signed : Bool)
    (isByte : value.IsByte G) (low : c.high = false)
    (free : value.isAccumulator = false → c.accInUse = false) :
    Emits G.w G.scope c (storeMemory (.cell name is8Bit offset signed) value) fun _ =>
      Stored G (.cell name is8Bit offset signed) value c := by
  unfold storeMemory
  cases isStored : storeOf? value with
  | some m =>
    refine (Emits.deposit isStored rfl).mono fun _ e h deposited => ?_
    obtain ⟨code, flags, same⟩ := deposited.context
    refine ⟨⟨code, flags, _, same⟩, fun s => ?_, deposited.shown⟩
    rw [deposited.wrote]
    exact .refl _
  | none =>
    have notAcc : value.isAccumulator = false := by
      cases value <;> first | rfl | cases isStored
    have loads : loadA value = emit .lda value := by
      cases value <;> first | rfl | exact isByte.elim | cases isStored
    have loaded := Emits.loadA isByte notAcc low
    rw [loads] at loaded
    refine .keepingA (free notAcc) (.bind loaded fun _ d g loaded => ?_)
    obtain ⟨code, flags, rfl⟩ := loaded.context
    have stores : storeOf? (.accumulator false) = some .sta := rfl
    refine (Emits.deposit stores rfl).mono fun _ e h deposited => ?_
    obtain ⟨others, further, same⟩ := deposited.context
    refine ⟨⟨others, further, _, same⟩, fun s => ?_, fun tracks s _ => ?_⟩
    · have alike := loaded.alike s
      have value := loaded.value s
      rw [Function.comp_apply, deposited.wrote]
      refine ⟨alike.x, alike.y, alike.sp, alike.decimal, ?_⟩
      change (g s).memory.write _ (g s).a = s.memory.write _ _
      rw [alike.memory, value]
    · exact deposited.shown tracks (g s) (loaded.shown s)

theorem emits_store {name : String} (names : Names G.table name place) (isByte : value.IsByte G)
    (low : c.high = false) (free : value.isAccumulator = false → c.accInUse = false) :
    Emits G.w G.scope c (store place value) fun _ => Stored G place value c := by
  cases names with
  | x | y => exact emits_storeIndex rfl isByte low free
  | constant => exact .fail
  | cell => exact emits_storeMemory _ _ _ _ isByte low free

end Storing

section Assigning

variable {G : Ground} {c : Context}
variable {name : String} {scope : Scope} {u : Unit} {w : Surroundings} {v : Place}
  {b : State → UInt8} {lhs : Operand} {rhs : Expr} {o : Op}

theorem checkWritable_same {d : Context} (ok : checkWritable name scope c = .ok u d) : d = c := by
  unfold checkWritable at ok
  split at ok
  · cases ok
    rfl
  · obtain ⟨table, between, read, checked⟩ := bind_inv ok
    cases read
    cases found : scope.symbols.getVariable? name with
    | none =>
      rw [found] at checked
      cases checked
    | some v =>
      rw [found] at checked
      dsimp only at checked
      split at checked
      · cases checked
      · cases checked
        rfl

theorem isByteName_of_isByteTarget {table : Table} (target : Expr.isByteTarget table name = true) :
    Expr.isByteName table name = true := by
  unfold Expr.isByteTarget at target
  unfold Expr.isByteName
  rw [target]
  rfl

theorem emits_target (known : Expr.isByteTarget scope.symbols name = true) (low : c.high = false) :
    Emits w scope c (target (.var name .absent)) fun place d g =>
      d = c ∧ g = id ∧ Names scope.symbols name place := by
  have named := isByteName_of_isByteTarget known
  refine .reading (P := fun _ => True) (fun _ _ ok => ⟨checkWritable_same ok, trivial⟩)
    fun _ _ => ?_
  have reads (b : Bool) (d : Context) (ok : isWide (.var name .absent) scope c = .ok b d) :
      d = c ∧ True := by
    cases ok
    exact ⟨rfl, trivial⟩
  refine .reading reads fun _ _ => .ite (fun _ => emits_readVariable named low) fun _ => ?_
  refine .inHigh (.modify rfl (.bind (emits_readVariable named rfl) ?_))
  rintro place d g ⟨same, nothing, names⟩
  cases same
  exact .modify rfl (.pure ⟨rfl, nothing, names⟩)

/-- A byte of the state at the start has been written to the place of a name. -/
structure Assigns (G : Ground) (name : String) (b : State → UInt8) (place : Place) (c d : Context)
    (g : State → State) : Prop where
  names : Names G.table name place
  kept : Kept c d
  acc : d.accInUse = c.accInUse
  run : ∀ s, G.starts s → ∃ t, Near G s t ∧ (place.put G.w G.table (b s) t).Alike (g s)
  shown : G.Tracks place → ∀ s, G.starts s → c.flags.Shown G s → d.flags.Shown G (g s)

/-- A variable without an index needs no Y, so that a value stays where it is. -/
theorem shelter_same {v' : Place} {d : Context}
    (ok : shelter (.var name .absent) v scope c = .ok v' d) : d = c ∧ v' = v := by
  cases v <;> cases ok <;> exact ⟨rfl, rfl⟩

/-- What is left to do once a value is there. -/
theorem Leaves.finish {d : Context} {g : State → State}
    (known : Expr.isByteTarget G.table name = true) (leaves : Leaves G b c v d g)
    (low : c.high = false) (inUse : Bool) (needed : inUse = v.isAccumulator) :
    Emits G.w G.scope { d with accInUse := inUse }
      (do let place ← target (.var name .absent)
          store place v
          setAccInUse c.accInUse
          return place) fun place e h => Assigns G name b place c e (h ∘ g) := by
  have lowHere : d.high = false := leaves.kept.high.trans low
  refine .bind (emits_target known (by exact lowHere)) ?_
  rintro place _ _ ⟨same, nothing, names⟩
  cases same
  cases nothing
  have free (notAcc : v.isAccumulator = false) : inUse = false := needed.trans notAcc
  refine .bind (emits_store names leaves.isByte (by exact lowHere) free) ?_
  rintro _ e h stored
  obtain ⟨code, flags, scratchInUse, rfl⟩ := stored.context
  refine .modify rfl (.pure ⟨names, leaves.kept.trans ⟨rfl, rfl, rfl, rfl, rfl, rfl⟩, rfl,
    fun s starts => ?_, fun tracks s starts shown => ?_⟩)
  · have near := Near.refl starts
    have run := stored.run (g s)
    rw [leaves.value s s near] at run
    exact ⟨g s, leaves.near s s near, run⟩
  · exact stored.shown tracks (g s) (leaves.shown s s (.refl starts) shown)

theorem emits_storeValue {m : Gen Place} (known : Expr.isByteTarget G.table name = true)
    (computes : Computes G m b) (low : c.high = false) (free : c.accInUse = false) :
    Emits G.w G.scope c (storeValue (.var name .absent) m) fun place =>
      Assigns G name b place c := by
  refine .accInUse (.bind (computes c low) fun v d g leaves => ?_)
  split
  · exact .fail
  · exact .fail
  · refine .reading (fun _ _ => shelter_same) fun v' same => ?_
    cases same
    refine .ite (fun inside => .modify rfl ?_) fun outside => ?_
    · exact leaves.finish known low true inside.symm
    · have unchanged : { d with accInUse := false } = d := by
        rw [← free, ← leaves.acc]
      have finishes := leaves.finish known low false (eq_false_of_ne_true outside).symm
      rw [unchanged] at finishes
      exact finishes

theorem wideVariable?_eq_none (target : Expr.isByteTarget G.table name = true) :
    wideVariable? G.table (.var name .absent) = none := by
  change (G.table.getVariable? name).filter _ = none
  rcases Bool.or_eq_true_iff.mp target with register | cell
  · rw [G.registers_free name register]
    rfl
  · unfold isCell isByteCell at cell
    cases found : G.table.getVariable? name with
    | none => rfl
    | some v =>
      rw [found] at cell
      simp only [Option.any_some, Bool.and_eq_true, beq_iff_eq] at cell
      simp [Option.filter, cell.1.1]

theorem checkRegisterTarget_same {lhs : Expr} {d : Context}
    (ok : checkRegisterTarget lhs rhs scope c = .ok u d) : d = c := by
  cases lhs with
  | var name index =>
    unfold checkRegisterTarget at ok
    dsimp only at ok
    split at ok
    · obtain ⟨wide, between, read, checked⟩ := bind_inv ok
      cases read
      split at checked
      · cases checked
      · cases checked
        rfl
    · cases ok
      rfl
  | _ =>
    cases ok
    rfl

/-- Whether one is added or subtracted is known in advance. -/
theorem isStepping_same {stepping : Bool} {d : Context}
    (ok : isStepping o rhs scope c = .ok stepping d) :
    d = c ∧ (stepping = true ↔ (o.compound? = some .add ∨ o.compound? = some .sub) ∧
      constant? scope.symbols rhs = some 1) := by
  unfold isStepping at ok
  cases base : o.compound? with
  | none =>
    rw [base] at ok
    cases ok
    simp
  | some op =>
    rw [base] at ok
    dsimp only at ok
    split at ok
    · next adds =>
      have adds : op = .add ∨ op = .sub := by simpa using adds
      cases ok
      simp [adds]
    · next other =>
      cases ok
      simp_all

/-- Outside of the pass for high bytes an assignment to anything but a word writes one byte. -/
theorem emits_assignNarrow {rhs : Operand} {Q : Report Place}
    (narrow : wideVariable? scope.symbols lhs.expr = none) (low : c.high = false)
    (rest : Emits w scope c (assignByte o lhs rhs) Q) : Emits w scope c (assign o lhs rhs) Q := by
  refine .symbols (.reading (fun _ _ => isStepping_same) fun stepping _ => .inHigh ?_)
  rw [low, narrow]
  exact .reading (P := fun _ => True) (fun _ _ ok => ⟨checkRegisterTarget_same ok, trivial⟩)
    fun _ _ => rest

theorem emits_assign {rhs : Operand} (var : lhs.expr = .var name .absent)
    (known : Expr.isByteTarget G.table name = true) (computes : Computes G rhs.value b)
    (low : c.high = false) (free : c.accInUse = false) :
    Emits G.w G.scope c (assign .assign lhs rhs) fun place => Assigns G name b place c := by
  refine emits_assignNarrow ?_ low ?_
  · rw [var]
    exact wideVariable?_eq_none known
  · unfold assignByte
    rw [var]
    exact emits_storeValue known computes low free

theorem flush_same {d : Context} (low : c.high = false) (none : c.deferred = [])
    (ok : flush scope c = .ok u d) : d = c := by
  obtain ⟨deferred, _, ⟨⟩, flushed⟩ := bind_inv ok
  rw [none] at flushed
  cases flushed
  rw [← none, ← low]

theorem endStatement_code {d : Context} (low : c.high = false) (none : c.deferred = [])
    (ok : endStatement scope c = .ok u d) : d.code = c.code := by
  obtain ⟨_, e, flushed, ends⟩ := bind_inv ok
  cases flush_same low none flushed
  cases ends
  rfl

/-- At the end of a statement nothing was put off, and nothing is in use any more. -/
theorem emits_endStatement (low : c.high = false) (none : c.deferred = []) :
    Emits w scope c endStatement fun _ d g =>
      d = { c with accInUse := false, scratchInUse := false } ∧ g = id := by
  refine .of_same fun _ d ok => ?_
  obtain ⟨_, e, flushed, ends⟩ := bind_inv ok
  cases flush_same low none flushed
  cases ends
  exact ⟨rfl, rfl, rfl⟩

theorem emits_assignStmt (known : Expr.isByteTarget G.table name = true)
    (computes : Computes G (lower rhs).value b) (low : c.high = false) (free : c.accInUse = false)
    (none : c.deferred = []) :
    Emits G.w G.scope c (exprStmt (.binary .assign (.var name .absent) rhs)) fun _ d g =>
      ∃ place, Assigns G name b place c d g := by
  have assigns : Emits G.w G.scope c
      (assign .assign (lower (.var name .absent)).toOperand (lower rhs).toOperand) _ :=
    emits_assign rfl known computes low free
  refine .bind assigns fun place d g assigns => ?_
  have lowHere := assigns.kept.high.trans low
  have noneHere := assigns.kept.deferred.trans none
  refine (emits_endStatement lowHere noneHere).mono fun _ e h ⟨same, nothing⟩ => ?_
  cases same
  cases nothing
  exact ⟨place, assigns.names, assigns.kept.trans ⟨rfl, rfl, rfl, rfl, rfl, rfl⟩, free.symm,
    assigns.run, assigns.shown⟩

end Assigning

open Code (Line Steps Point)
open Cpu (Memory)
open Source (Loc Stmt)

variable {G : Ground} {name : String} {place : Place} {c d : Context}

/-- A byte has been assigned to a variable, and nothing that lasts has changed besides. -/
structure Assigned (w : Surroundings) (table : Table) (name : String) (b : UInt8) (s t : State) :
    Prop where
  stored : t.read (cellAddress w table name 0) = b
  x : t.x = s.x
  y : t.y = s.y
  sp : t.sp = s.sp
  decimal : t.decimal = s.decimal
  others : ∀ address, address ≠ cellAddress w table name 0 → address ≠ scratchAddress w →
    address ≠ s.stackTop → t.read address = s.read address

/-- The bytes of a term, and the states that its code works in. -/
def termGround {w : Surroundings} {scope : Scope} (defined : scope.symbols.Defined) {e : Expr}
    (apart : ∀ p ∈ e.cells scope.symbols,
      cellAddress w scope.symbols p.1 p.2 ≠ scratchAddress w) : Ground where
  w := w
  scope := scope
  cells name offset := (name, offset) ∈ e.cells scope.symbols
  starts s := s.decimal = false ∧
    ∀ p ∈ e.cells scope.symbols, cellAddress w scope.symbols p.1 p.2 ≠ s.stackTop
  arithmetic := True
  registers_free := Scope.registers_free defined
  scratch_apart _ _ := apart _
  stack_apart _ _ starts _ _ := starts.2 _
  binary _ _ starts := starts.1

theorem Names.eq_cell (names : Names G.table name place) (cell : isCell G.table name = true) :
    ∃ signed, place = .cell name true 0 signed := by
  cases names with
  | x =>
    rw [isCell, G.registers_free "X" rfl] at cell
    cases cell
  | y =>
    rw [isCell, G.registers_free "Y" rfl] at cell
    cases cell
  | constant plain found fixed =>
    rw [isCell, found] at cell
    simp [isByteCell, fixed] at cell
  | cell => exact ⟨_, rfl⟩

theorem Assigns.assigned {b : State → UInt8} {g : State → State}
    (assigns : Assigns G name b place c d g) (cell : isCell G.table name = true) {s : State}
    (starts : G.starts s) : Assigned G.w G.table name (b s) s (g s) := by
  obtain ⟨signed, rfl⟩ := assigns.names.eq_cell cell
  obtain ⟨t, near, alike⟩ := assigns.run s starts
  have reads (address : UInt16) : (g s).read address =
      if cellAddress G.w G.table name 0 = address then b s else t.read address :=
    (alike.read address).trans (State.read_write t _ address (b s))
  refine ⟨?_, alike.x.trans near.x, alike.y.trans near.y, alike.sp.trans near.sp,
    alike.decimal.trans near.decimal, fun address noCell noScratch noTop => ?_⟩
  · rw [reads, if_pos rfl]
  · have free : ¬G.Spare s address := by
      rintro (scratch | ⟨-, top⟩)
      · exact noScratch scratch
      · exact noTop top
    rw [reads, if_neg noCell.symm, near.memory address free]

theorem steps_labelLines (loc : Loc) (w : Surroundings) (all rest : List Line) (s : State) :
    Steps w all ⟨labelLines loc ++ rest, s⟩ ⟨rest, s⟩ := by
  unfold labelLines
  split
  · exact .refl _
  · exact .single (Point.step?_of_next rfl)

/-- Code for the assignment of a term to a byte variable assigns the lowest byte of the term. -/
theorem stmt_assigned {w : Surroundings} {scope : Scope} (defined : scope.symbols.Defined)
    {name : String} {e : Expr} (cell : isCell scope.symbols name = true)
    (isTerm : e.isTerm scope.symbols = true)
    (apart : ∀ p ∈ e.cells scope.symbols, cellAddress w scope.symbols p.1 p.2 ≠ scratchAddress w)
    (loc : Loc) {c : Context} (low : c.high = false) (free : c.accInUse = false)
    (none : c.deferred = []) :
    Ensures (stmt (.expr loc (.binary .assign (.var name .absent) e))) scope c fun _ d =>
      ∃ code, d.code = c.code ++ code ∧
        ∀ s, s.decimal = false →
          (∀ p ∈ e.cells scope.symbols, cellAddress w scope.symbols p.1 p.2 ≠ s.stackTop) →
            ∃ t, Steps w code ⟨code, s⟩ ⟨[], t⟩ ∧
              Assigned w scope.symbols name
                (lowByte (e.asNumber scope.symbols (bytesOf w scope.symbols s))) s t := by
  refine ensures_stmt fun _ d ok => ?_
  obtain ⟨_, begun, enters, ok⟩ := bind_inv ok
  obtain ⟨flags, same⟩ := enter_eq_ok enters
  let G := termGround defined apart
  have target : Expr.isByteTarget G.table name = true := Bool.or_eq_true_iff.mpr (.inr cell)
  have computes := computes_lower (G := G) trivial isTerm fun _ => id
  have emits := emits_assignStmt (G := G) (c := begun) target computes (by rw [same]; exact low)
    (by rw [same]; exact free) (by rw [same]; exact none)
  obtain ⟨code, added, straight, place, assigns⟩ := emits () d ok
  refine ⟨labelLines loc ++ code.map .instruction, ?_, fun s binary stack => ?_⟩
  · rw [added, same, List.append_assoc]
  · have steps (all : List Line) :
        Steps w all ⟨code.map .instruction, s⟩ ⟨[], Code.effects w code s⟩ := by
      rw [← List.append_nil (code.map _)]
      exact .straight straight [] s
    exact ⟨_, (steps_labelLines loc w _ _ s).trans (steps _), assigns.assigned cell ⟨binary, stack⟩⟩

/-- A byte, a signed byte, a constant, an array and a variable to assign to. -/
def mixedTermSymbols : Table where
  vars := [{ name := "a", size := 1 }, { name := "d", size := 1 },
    { name := "k", size := 1, isConst := true, value := 300 },
    { name := "s", size := 1, signed := true }, { name := "t", size := 1, length := 4 }]

/-- The term `(t[2] - (a + s)) ^ (k - (~X << 3))`: one value has to be spilled and one pushed. -/
def mixedTerm : Expr :=
  let var (name : String) : Expr := .var name .absent
  .binary .xor (.binary .sub (.var "t" (.int 2)) (.binary .add (var "a") (var "s")))
    (.binary .sub (var "k") (.binary .shl (.unary .bitNot (var "X")) (.int 3)))

def mixedTermPlaces : Surroundings where
  address
    | "a" => 0x200
    | "s" => 0x201
    | "t+2" => 0x204
    | "d" => 0x210
    | _ => 0x80
  verbatim _ _ := none
  call _ _ := none

def mixedTermStart : State where
  x := 0x0F
  sp := 0xFD
  memory := ((({} : Memory).write 0x200 5).write 0x201 0xFE).write 0x204 1

def mixedTermStmt : Stmt :=
  .expr { label := "again" } (.binary .assign (.var "d" .absent) mixedTerm)

theorem mixedTermSymbols_defined : mixedTermSymbols.Defined :=
  .of_entries rfl

theorem mixedTerm_apart :
    ∀ p ∈ mixedTerm.cells mixedTermSymbols,
      cellAddress mixedTermPlaces mixedTermSymbols p.1 p.2 ≠ scratchAddress mixedTermPlaces ∧
        cellAddress mixedTermPlaces mixedTermSymbols p.1 p.2 ≠ mixedTermStart.stackTop := by
  decide +kernel

/-- The term stands for -430 here, and the lowest byte of that is left in `d`. -/
theorem mixedTerm_assigned :
    isCell mixedTermSymbols "d" = true ∧ mixedTerm.isTerm mixedTermSymbols = true ∧
      ∃ d t, stmt mixedTermStmt ⟨mixedTermSymbols, { name := "main" }⟩ {} = .ok () d ∧
        Steps mixedTermPlaces d.code ⟨d.code, mixedTermStart⟩ ⟨[], t⟩ ∧
          Assigned mixedTermPlaces mixedTermSymbols "d" 0x52 mixedTermStart t := by
  have cell : isCell mixedTermSymbols "d" = true := by decide +kernel
  have isTerm : mixedTerm.isTerm mixedTermSymbols = true := by decide +kernel
  have ensures := @stmt_assigned mixedTermPlaces ⟨mixedTermSymbols, { name := "main" }⟩
    mixedTermSymbols_defined "d" mixedTerm cell isTerm
    (fun p inside => (mixedTerm_apart p inside).1)
    { label := "again" } {} rfl rfl rfl
  have goes : goesThrough (stmt mixedTermStmt) ⟨mixedTermSymbols, { name := "main" }⟩ {}
      (fun _ => true) = true := by
    decide +kernel
  obtain ⟨d, ran, -, runs⟩ := ensures.exists_code rfl goes
  obtain ⟨t, steps, assigned⟩ :=
    runs mixedTermStart rfl fun p inside => (mixedTerm_apart p inside).2
  have value : lowByte (mixedTerm.asNumber mixedTermSymbols
      (bytesOf mixedTermPlaces mixedTermSymbols mixedTermStart)) = 0x52 := by
    decide +kernel
  rw [value] at assigned
  exact ⟨cell, isTerm, d, t, ran, steps, assigned⟩

variable {table : Table} {m : Mnemonic}

/-- What a step makes of a byte. -/
def movedByOne (increments : Bool) (b : UInt8) : UInt8 :=
  if increments then b + 1 else b - 1

def Place.ofName (name : String) : Place :=
  if name = "X" then .x else if name = "Y" then .y else .cell name true 0 false

def stepByte (w : Surroundings) (table : Table) (name : String) (increments : Bool) (s : State) :
    State :=
  (Place.ofName name).put w table
    (movedByOne increments ((Place.ofName name).byte w table s)) s

namespace Deferred

def isByteStep (table : Table) (step : Deferred) : Bool :=
  match step.target with
  | .var name .absent => Expr.isByteTarget table name
  | _ => false

/-- The state after a step that was put off. -/
def perform (w : Surroundings) (table : Table) (s : State) (step : Deferred) : State :=
  match step.target with
  | .var name _ => stepByte w table name step.increments s
  | _ => s

def performAll (w : Surroundings) (table : Table) (steps : List Deferred) (s : State) : State :=
  steps.foldl (perform w table) s

end Deferred

section Alikeness

variable {w : Surroundings} {s t : State}

theorem Place.put_alike {b : UInt8} (alike : s.Alike t) :
    (place.put w table b s).Alike (place.put w table b t) := by
  obtain ⟨x, y, sp, decimal, memory⟩ := alike
  cases place with
  | x => exact ⟨rfl, y, sp, decimal, memory⟩
  | y => exact ⟨x, rfl, sp, decimal, memory⟩
  | cell name is8Bit offset signed =>
    exact ⟨x, y, sp, decimal, congrArg (·.write (cellAddress w table name offset) b) memory⟩
  | _ => exact ⟨x, y, sp, decimal, memory⟩

theorem Place.isAccumulator_ofName (name : String) : (ofName name).isAccumulator = false := by
  unfold ofName
  split
  · rfl
  · split <;> rfl

theorem stepByte_alike (name : String) (increments : Bool) (alike : s.Alike t) :
    (stepByte w table name increments s).Alike (stepByte w table name increments t) := by
  unfold stepByte
  rw [Place.byte_alike alike (Place.isAccumulator_ofName name)]
  exact Place.put_alike alike

theorem Deferred.perform_alike (step : Deferred) (alike : s.Alike t) :
    (step.perform w table s).Alike (step.perform w table t) := by
  unfold perform
  split
  · exact stepByte_alike _ _ alike
  · exact alike

theorem Deferred.performAll_alike (steps : List Deferred) (alike : s.Alike t) :
    (performAll w table steps s).Alike (performAll w table steps t) := by
  induction steps generalizing s t with
  | nil => exact alike
  | cons step rest ih => exact ih (step.perform_alike alike)

/-- Steps of bytes make no difference between states that differ in the scratch cell only. -/
theorem Untouched.perform (untouched : Untouched w s t) (step : Deferred) :
    Untouched w (step.perform w table s) (step.perform w table t) := by
  obtain ⟨x, y, sp, decimal, memory⟩ := untouched
  unfold Deferred.perform
  split
  · next name index _ =>
    unfold stepByte Place.ofName
    split
    · exact ⟨congrArg (movedByOne step.increments) x, y, sp, decimal, memory⟩
    · split
      · exact ⟨x, congrArg (movedByOne step.increments) y, sp, decimal, memory⟩
      · refine ⟨x, y, sp, decimal, fun address other => ?_⟩
        change (t.write _ (movedByOne _ (t.read (cellAddress w table name 0)))).read address =
          (s.write _ (movedByOne _ (s.read (cellAddress w table name 0)))).read address
        rw [State.read_write, State.read_write]
        split
        · next same => rw [same, memory address other]
        · exact memory address other
  · exact ⟨x, y, sp, decimal, memory⟩

theorem Untouched.performAll (steps : List Deferred) (untouched : Untouched w s t) :
    Untouched w (Deferred.performAll w table steps s) (Deferred.performAll w table steps t) := by
  induction steps generalizing s t with
  | nil => exact untouched
  | cons step rest ih => exact ih (untouched.perform step)

end Alikeness

/-- The place that a name stands for is that of its byte, but for the sign. -/
theorem Names.ofName
    (names : Names table name place) (known : Expr.isByteTarget table name = true) :
    place = .x ∧ Place.ofName name = .x ∨ place = .y ∧ Place.ofName name = .y ∨
      isCell table name = true ∧ Place.ofName name = .cell name true 0 false ∧
        ∃ signed, place = .cell name true 0 signed := by
  cases names with
  | x => exact .inl ⟨rfl, rfl⟩
  | y => exact .inr (.inl ⟨rfl, rfl⟩)
  | constant plain found fixed =>
    rw [Expr.isByteTarget, plain, isCell, found] at known
    simp [isByteCell, fixed] at known
  | @cell _ v plain found isByte =>
    obtain ⟨notX, notY⟩ := ne_of_plain plain
    refine .inr (.inr ⟨?_, ?_, v.signed, rfl⟩)
    · rw [isCell, found]
      exact isByte
    · rw [Place.ofName, if_neg notX, if_neg notY]

/-- A byte has been changed, and nothing else but the flags. -/
structure Stepped (G : Ground) (move : State → State) (c d : Context) (g : State → State) :
    Prop where
  context : ∃ code flags, d = { c with code, flags }
  acc : ∀ s, (g s).a = s.a
  run : ∀ s, (move s).Alike (g s)

section Stepping

variable {G : Ground} {increments : Bool} {move : State → State} {tracked : Prop} {c : Context}

/-- An instruction that steps a register. -/
theorem Stepped.emitImplied (straight : m.isStraight = true)
    (run : ∀ s : State, (s.execute m .none).a = s.a ∧ (move s).Alike (s.execute m .none))
    (shown : ∀ s : State, (c.flags.after m .nothing).Shown G (s.execute m .none)) :
    Emits G.w G.scope c (emitImplied m) fun _ d g =>
      Stepped G move c d g ∧ (tracked → ∀ s, d.flags.Shown G (g s)) := by
  refine (Emits.emitImplied straight).mono ?_
  rintro _ d g ⟨⟨code, rfl⟩, does⟩
  refine ⟨⟨⟨code, _, rfl⟩, fun s => ?_, fun s => ?_⟩, fun _ s => ?_⟩
  all_goals rw [does]
  · exact (run s).1
  · exact (run s).2
  · exact shown s

/-- An instruction that steps a byte in memory. -/
theorem Stepped.emit {signed : Bool} (straight : m.isStraight = true)
    (low : c.high = false) (flags : c.flags.after m (.cell name true 0 signed) = .cell name true 0)
    (cell : tracked → G.cells name 0)
    (run : ∀ s : State, (s.execute m (.address (G.address name 0))).a = s.a ∧
      (move s).Alike (s.execute m (.address (G.address name 0))))
    (shows : ∀ s : State, (s.execute m (.address (G.address name 0))).Shows
      ((s.execute m (.address (G.address name 0))).read (G.address name 0))) :
    Emits G.w G.scope c (emit m (.cell name true 0 signed)) fun _ d g =>
      Stepped G move c d g ∧ (tracked → ∀ s, d.flags.Shown G (g s)) := by
  refine (Emits.emit straight rfl low).mono ?_
  rintro _ d g ⟨⟨code, rfl⟩, does⟩
  refine ⟨⟨⟨code, c.flags.after m (.cell name true 0 signed), ?_⟩, fun s => ?_, fun s => ?_⟩,
    fun holds s => ?_⟩
  · simp [Place.isScratch]
  all_goals rw [does]
  · exact (run s).1
  · exact (run s).2
  · rw [flags]
    exact ⟨cell holds, shows s⟩

/-- Flags that show what has just been written show the byte in memory. -/
theorem shows_written (s : State) (address : UInt16) (b : UInt8) :
    ((s.write address b).setNZ b).Shows (((s.write address b).setNZ b).read address) := by
  have read : ((s.write address b).setNZ b).read address = b := Cpu.Memory.read_write_self ..
  rw [read]
  exact ⟨rfl, rfl⟩

theorem emits_step (known : Expr.isByteTarget G.table name = true) (low : c.high = false) :
    Emits G.w G.scope c (step (.var name .absent) increments) fun _ d g =>
      Stepped G (stepByte G.w G.table name increments) c d g ∧
        ((isCell G.table name = true → G.cells name 0) → ∀ s, d.flags.Shown G (g s)) := by
  refine .symbols ?_
  rw [wideVariable?_eq_none known]
  refine .bind (emits_target known low) ?_
  rintro place _ _ ⟨same, rfl, names⟩
  cases same
  unfold stepByte
  rcases names.ofName known with ⟨rfl, same⟩ | ⟨rfl, same⟩ | ⟨isCell, same, signed, rfl⟩
  all_goals rw [same]
  · cases increments <;>
      exact Stepped.emitImplied rfl (fun s => ⟨rfl, rfl, rfl, rfl, rfl, rfl⟩) fun s => ⟨rfl, rfl⟩
  · cases increments <;>
      exact Stepped.emitImplied rfl (fun s => ⟨rfl, rfl, rfl, rfl, rfl, rfl⟩) fun s => ⟨rfl, rfl⟩
  · cases increments <;>
      exact Stepped.emit rfl low rfl (fun cell => cell isCell)
        (fun s => ⟨rfl, rfl, rfl, rfl, rfl, rfl⟩) fun s => shows_written s _ _

/-- Steps that were put off, one after the other. -/
theorem emits_stepAll : ∀ {steps : List Deferred} {c : Context},
    (∀ step ∈ steps, step.isByteStep G.table = true) → c.high = false →
    Emits G.w G.scope c (stepAll steps) fun _ d g =>
      Stepped G (Deferred.performAll G.w G.table steps) c d g
  | [], c, _, _ => .pure ⟨⟨_, _, rfl⟩, fun _ => rfl, fun s => .refl s⟩
  | ⟨target, increments⟩ :: rest, c, known, low => by
      have first := known _ List.mem_cons_self
      unfold Deferred.isByteStep at first
      split at first
      · next name same =>
        cases same
        refine .bind (emits_step first low) ?_
        rintro _ d g ⟨⟨⟨code, flags, rfl⟩, acc, run⟩, -⟩
        have others (step : Deferred) (inside : step ∈ rest) :=
          known step (List.mem_cons_of_mem _ inside)
        refine (emits_stepAll (c := { c with code, flags }) others low).mono ?_
        rintro _ e h ⟨⟨others, shown, rfl⟩, kept, does⟩
        refine ⟨⟨others, shown, rfl⟩, fun s => (kept (g s)).trans (acc s), fun s => ?_⟩
        exact (Deferred.performAll_alike rest (run s)).trans (does (g s))
      · cases first

theorem emits_flush (known : ∀ step ∈ c.deferred, step.isByteStep G.table = true) :
    Emits G.w G.scope c flush fun _ d g =>
      Stepped G (Deferred.performAll G.w G.table c.deferred) { c with deferred := [] } d g := by
  refine .get (.modify rfl (.inHigh (.modify rfl ?_)))
  refine .bind (emits_stepAll known rfl) ?_
  rintro _ d g ⟨⟨code, flags, rfl⟩, acc, run⟩
  exact .modify rfl (.pure ⟨⟨code, flags, rfl⟩, acc, run⟩)

end Stepping

end Backend6502.Lowering
