import Backend6502.Proofs.BytePlaces

/-!
# Updates in place

A compound assignment that adds or subtracts one, or shifts, is carried out where the byte stands if
there is an instruction that does so. Else, as for a signed byte that is shifted, its value is
computed and stored like that of any other assignment. Both ways leave the same byte, and nothing
else.
-/

namespace Backend6502.Cpu

theorem Cells.write_write (bits : Nat) (cells : Cells) (address : Nat) (b b' : UInt8) :
    (cells.write bits address b).write bits address b' = cells.write bits address b' := by
  induction bits generalizing cells with
  | zero => rfl
  | succ bits ih =>
    by_cases set : address.testBit bits = true <;> simp [write, set, low, high, ih]

theorem State.write_write (s : State) (address : UInt16) (b b' : UInt8) :
    (s.write address b).write address b' = s.write address b' :=
  congrArg (fun cells => { s with memory := ⟨cells⟩ }) (Cells.write_write 16 _ _ b b')

end Backend6502.Cpu

namespace Backend6502.Lowering

open Code (Surroundings Steps)
open Cpu (Memory State Mnemonic)
open Source (Op Expr Loc)
open Symbols (Table)

/-- What an update with a number makes of a byte. -/
def updatedBy (op : Op) (signed : Bool) (n : Int64) (b : UInt8) : UInt8 :=
  if op = .shl ∨ op = .shr then (shiftedOnce op signed)^[n.toInt.toNat] b else op.onBytes b
    (lowByte n)

/-- The updates that can be carried out in place; a shift by more than a byte is an error. -/
inductive Updatable : Op → Int64 → Prop where
  | add : Updatable .add 1
  | sub : Updatable .sub 1
  | shl {n : Int64} (least : 1 ≤ n) : Updatable .shl n
  | shr {n : Int64} (least : 1 ≤ n) : Updatable .shr n

/-- The instruction works on a byte in memory, and changes nothing else but the flags. -/
structure Modifies (m : Mnemonic) (f : UInt8 → UInt8) : Prop where
  straight : m.isStraight = true
  indexes : indexesX m = true
  does : ∀ (s : State) (address : UInt16),
    (s.write address (f (s.read address))).Alike (s.execute m (.address address))

theorem modifies_step (increments : Bool) :
    Modifies (if increments then .inc else .dec) (movedByOne increments) := by
  cases increments <;> exact ⟨rfl, rfl, fun _ _ => ⟨rfl, rfl, rfl, rfl, rfl⟩⟩

theorem modifies_shift {op : Op} (shifts : op = .shl ∨ op = .shr) :
    Modifies (if op = .shr then .lsr else .asl) (shiftedOnce op false) := by
  rcases shifts with rfl | rfl <;> exact ⟨rfl, rfl, fun _ _ => ⟨rfl, rfl, rfl, rfl, rfl⟩⟩

/-- Is it a byte of a variable, or an element that X selects? -/
def Place.isModified : Place → Bool
  | .cell .. | .indexedX .. => true
  | _ => false

section Memory

variable {w : Surroundings} {scope : Scope} {c : Context} {place : Place} {m : Mnemonic}
  {f : UInt8 → UInt8}

section

variable (memory : place.isModified = true)

include memory

/-- A byte that has been written is read, and written over. -/
theorem Place.fill_filled (w : Surroundings) (table : Table)
    (b b' : UInt8) (s : State) : place.seen w table (place.fill w table b s) = b ∧
      place.fill w table b' (place.fill w table b s) = place.fill w table b' s := by
  cases place with
  | cell | indexedX => exact ⟨Cpu.Memory.read_write_self .., State.write_write ..⟩
  | _ => cases memory

theorem emits_modify (modifies : Modifies m f) :
    Emits w scope c (emit m place) fun _ d g => Passed c d ∧ ∀ s,
      (place.fill w scope.symbols (f (place.seen w scope.symbols s)) s).Alike (g s) := by
  cases place with
  | cell | indexedX =>
    exact .passing (.emitAt modifies.straight rfl fun _ => modifies.indexes) fun s =>
      modifies.does s _
  | _ => cases memory

theorem emits_modifyTimes (modifies : Modifies m f) (n : Nat) :
    Emits w scope c (emitTimes m place (n + 1)) fun _ d g => Passed c d ∧ ∀ s,
      (place.fill w scope.symbols (f^[n + 1] (place.seen w scope.symbols s)) s).Alike (g s) := by
  induction n generalizing c with
  | zero => exact .bind (emits_modify memory modifies) fun _ _ _ does => .pure does
  | succ n ih =>
    refine .bind (emits_modify memory modifies) fun _ d g ⟨passed, once⟩ => ?_
    refine ih.mono fun _ e h ⟨passed', further⟩ => ⟨passed.trans passed', fun s => ?_⟩
    have notAcc : place.isAccumulator = false := by cases place <;> first | rfl | cases memory
    obtain ⟨seen, filled⟩ := Place.fill_filled memory w scope.symbols
      (f (place.seen w scope.symbols s)) (f^[n + 1 + 1] (place.seen w scope.symbols s)) s
    have others := further (g s)
    rw [Place.seen_alike (once s) notAcc, seen] at others
    rw [← filled]
    exact (Place.fill_alike (once s)).trans others

end

end Memory

section Updates

variable {w : Surroundings} {scope : Scope} {c : Context} {name : String} {index : Expr}
  {place : Place} {op o : Op} {n : Int64}

theorem emits_updateValue (located : ByteAt scope.symbols name index place)
    (defined : scope.symbols.Defined) (updatable : Updatable op n) (low : c.high = false)
    (free : c.accInUse = false) :
    Emits w scope c (arithOrShift op (lower (.var name index)).toOperand (lower (.int n)).toOperand)
      fun p d g => p.isDirect = true ∧ Passed c d ∧ ∀ s : State, s.decimal = false → s.Alike (g s) ∧
        p.byte w scope.symbols (g s) =
          updatedBy op place.signed n (place.seen w scope.symbols s) := by
  have varies (n : Int64) : place ≠ .immediate n := by
    rintro rfl
    cases located
  have notAcc : place.isAccumulator = false := by cases located <;> rfl
  have rests (p : Place) (d : Context) (ok : (lower (.var name index)).value scope c = .ok p d) :
      d = c ∧ p = place := located.read defined low ok
  have shifted (shifts : op = .shl ∨ op = .shr) (some : 1 ≤ n) :
      Emits w scope c (shiftBits op (lower (.var name index)).toOperand n) fun p d g =>
        p.isDirect = true ∧ Passed c d ∧ ∀ s : State, s.decimal = false → s.Alike (g s) ∧
          p.byte w scope.symbols (g s) =
            updatedBy op place.signed n (place.seen w scope.symbols s) := by
    have direct (zero : n = 0) : place.isDirect = true := by
      rw [zero] at some
      exact absurd some (by decide)
    refine (emits_shiftBits rests located.readable varies direct low free).mono ?_
    rintro p d g ⟨isDirect, passed, run⟩
    refine ⟨isDirect, passed, fun s _ => ⟨(run s).2.1, ?_⟩⟩
    rw [(run s).2.2, updatedBy, if_pos shifts]
  cases updatable with
  | add | sub =>
    have values : Emits w scope c (bothValues (lower (.var name index)).toOperand
        (lower (.int 1)).toOperand) fun p d g => p = (place, .immediate 1) ∧ Passed c d ∧ g = id :=
      .of_same fun p d ok => by
        obtain ⟨rfl, left, right⟩ := bothValues_same (P := (· = place)) (Q := (· = .immediate 1))
          (fun p d ok => ⟨(rests p d ok).1, (rests p d ok).2 ▸ notAcc, (rests p d ok).2⟩)
          (fun _ _ ok => by cases ok; exact ⟨rfl, rfl⟩) ok
        exact ⟨rfl, Prod.ext left right, .of_coded _ _ _, rfl⟩
    refine (emits_arithValues rfl free values located.readable varies rfl rfl).mono ?_
    rintro p d g ⟨isAcc, passed, _, rfl, run⟩
    have isDirect : p.isDirect = true := by cases p <;> first | rfl | cases isAcc
    have inAcc (s : State) : p.byte w scope.symbols s = s.a := by
      cases p <;> first | rfl | cases isAcc
    refine ⟨isDirect, passed, fun s binary => ?_⟩
    obtain ⟨alike, value⟩ := run s binary
    rw [low, Place.inPass_false] at value
    refine ⟨alike, (inAcc _).trans ((congrArg Prod.fst value).trans ?_)⟩
    exact withCarry_startCarry _ s.carry _ _
  | shl least =>
    refine emits_shift rfl (fun whole => .inHigh ?_) fun _ => shifted (.inl rfl) least
    rw [low, whole, if_neg Bool.false_ne_true]
    exact .pure ⟨rfl, .of_coded _ _ _, fun s _ => ⟨.refl s, (doubled_byte _).symm⟩⟩
  | shr least =>
    refine emits_shift rfl (fun whole => .symbols ?_) fun _ => shifted (.inr rfl) least
    have narrow : wideVariable? scope.symbols (lower (.var name index)).expr = none :=
      located.narrow defined
    rw [narrow]
    cases whole
    exact shifted (.inr rfl) least

/-- What is left of an update: the byte at its place, and nothing else. -/
def UpdatesTo (w : Surroundings) (table : Table) (place : Place) (op : Op) (n : Int64)
    (s t : State) : Prop :=
  s.decimal = false →
    (place.fill w table (updatedBy op place.signed n (place.seen w table s)) s).Alike t

theorem emits_storeUpdate (located : ByteAt scope.symbols name index place)
    (defined : scope.symbols.Defined) (updatable : Updatable op n) (low : c.high = false)
    (free : c.accInUse = false) :
    Emits w scope c (storeValue (.var name index)
        (arithOrShift op (lower (.var name index)).toOperand (lower (.int n)).toOperand))
      fun _ d g => Passed c d ∧ ∀ s, UpdatesTo w scope.symbols place op n s (g s) := by
  refine (emits_storeInto located.needsY (fun _ _ _ _ => located.target defined) located.readable
    free (emits_updateValue located defined updatable low free)).mono ?_
  rintro _ d g ⟨passed, v, h, value, stores⟩
  refine ⟨passed, fun s binary => ?_⟩
  obtain ⟨alike, same⟩ := value s binary
  have stored := (stores s).1
  rw [low, Place.part, Place.inPass_false, same] at stored
  exact (Place.fill_alike alike).trans stored

theorem emits_stepHere (increments : Bool) (located : ByteAt scope.symbols name index place)
    (defined : scope.symbols.Defined) :
    Emits w scope c (step (.var name index) increments) fun _ d g => Passed c d ∧ ∀ s,
      (place.fill w scope.symbols (movedByOne increments (place.seen w scope.symbols s)) s).Alike
        (g s) := by
  have modified (memory : place.isModified = true) :=
    @emits_modify w scope c place _ _ memory (modifies_step increments)
  refine .symbols ?_
  rw [located.narrow defined]
  refine .reading (fun _ _ => located.target defined) fun p same => ?_
  cases same
  cases place with
  | x | y =>
    cases increments
    all_goals exact .passing (.emitImplied rfl) fun s => ⟨rfl, rfl, rfl, rfl, rfl⟩
  | cell | indexedX => exact modified rfl
  | _ => cases located

section

variable (located : ByteAt scope.symbols name index place) (defined : scope.symbols.Defined)

include located defined

/-- A byte that is unsigned and in memory is shifted where it stands; else there is no code. -/
theorem emits_shiftInPlace (shifts : op = .shl ∨ op = .shr) (least : 1 ≤ n) :
    Emits w scope c (shiftInPlace op (.var name index) n) fun done d g =>
      (done = none ∧ d = c ∧ g = id) ∨
        (done ≠ none ∧ Passed c d ∧ ∀ s, UpdatesTo w scope.symbols place op n s (g s)) := by
  refine .symbols (.ite (fun never => ?_) fun _ => ?_)
  · exact .pure (.inl ⟨rfl, rfl, rfl⟩)
  · refine .reading (fun _ _ => located.target defined) fun p same => ?_
    cases same
    obtain ⟨k, times⟩ : ∃ k, n.toInt.toNat = k + 1 := by
      have least := Int64.le_iff_toInt_le.mp least
      change 1 ≤ n.toInt at least
      exact Nat.exists_eq_succ_of_ne_zero (by omega)
    have modified (memory : place.isModified = true) (unsigned : place.signed = false) :
        Emits w scope c (do
          emitTimes (if op = .shr then .lsr else .asl) place n.toInt.toNat
          return some place) fun done d g => (done = .none ∧ d = c ∧ g = id) ∨
        (done ≠ .none ∧ Passed c d ∧ ∀ s, UpdatesTo w scope.symbols place op n s (g s)) := by
      rw [times]
      refine .bind (emits_modifyTimes memory (modifies_shift shifts) k) ?_
      rintro _ d g ⟨passed, run⟩
      refine .pure (.inr ⟨nofun, passed, fun s _ => ?_⟩)
      rw [updatedBy, if_pos shifts, times, unsigned]
      exact run s
    split
    · exact modified rfl rfl
    · exact modified rfl rfl
    · exact .pure (.inl ⟨rfl, rfl, rfl⟩)

theorem emits_assignInPlace (updatable : Updatable op n) (low : c.high = false) :
    Emits w scope c (assignInPlace op (.var name index) (.int n)) fun done d g =>
      (done = none ∧ d = c ∧ g = id) ∨
        (done ≠ none ∧ Passed c d ∧ ∀ s, UpdatesTo w scope.symbols place op n s (g s)) := by
  have reads (read : Option Int64) (d : Context)
      (ok : constant (.int n) scope c = .ok read d) : d = c ∧ read = some n := by
    cases ok
    exact ⟨rfl, rfl⟩
  refine .reading reads fun read same => .inHigh ?_
  cases same
  rw [low]
  cases updatable with
  | add | sub =>
    refine .ite (fun _ => .reading (fun _ _ => located.target defined) fun p same => ?_)
      fun other =>
      absurd rfl other
    cases same
    refine .bind (emits_stepHere _ located defined) fun _ d g ⟨passed, steps⟩ => ?_
    exact .pure (.inr ⟨nofun, passed, fun s _ => steps s⟩)
  | shl least => exact emits_shiftInPlace located defined (.inl rfl) least
  | shr least => exact emits_shiftInPlace located defined (.inr rfl) least

theorem emits_updateByte (base : o.compound? = some op) (updatable : Updatable op n)
    (low : c.high = false) (free : c.accInUse = false) :
    Emits w scope c (assignByte o (lower (.var name index)).toOperand (lower (.int n)).toOperand)
      fun _ d g => Passed c d ∧ ∀ s, UpdatesTo w scope.symbols place op n s (g s) := by
  unfold assignByte
  rw [base]
  refine .accInUse (.bind (emits_assignInPlace located defined updatable low) ?_)
  rintro done d g (⟨rfl, rfl, rfl⟩ | ⟨some, passed, updates⟩)
  · exact emits_storeUpdate located defined updatable low free
  · cases done with
    | none => exact absurd rfl some
    | some p => exact .modify rfl (.pure ⟨⟨passed.high, rfl, passed.deferred⟩, updates⟩)

theorem stmt_updates {rhs : Expr} {loc : Loc} (assigns : o.isAssign = true)
    (updates : ∀ begun : Context, begun.high = false → begun.accInUse = false →
      Emits w scope begun (assignByte o (lower (.var name index)).toOperand (lower rhs).toOperand)
        fun _ d g => Passed begun d ∧ ∀ s, UpdatesTo w scope.symbols place op n s (g s))
    (low : c.high = false) (free : c.accInUse = false) (none : c.deferred = []) :
    Ensures (stmt (.expr loc (.binary o (.var name index) rhs))) scope c fun _ d =>
      ∃ code, d.code = c.code ++ code ∧ ∀ s, ∃ t, Steps w code ⟨code, s⟩ ⟨[], t⟩ ∧
        UpdatesTo w scope.symbols place op n s t := by
  refine stmt_assigns_straight assigns (fun begun low free => ?_) low free none
  refine emits_assignNarrow (located.narrow defined) low ((updates begun low free).mono ?_)
  exact fun _ _ _ ⟨passed, all⟩ => ⟨passed.high.trans low, passed.deferred, all⟩

end

/--
A byte is updated alike by a compound assignment and by the assignment of the outcome: both leave
the outcome at its place and all other bytes and registers as they were, but for the accumulator.
-/
theorem compound_agrees (located : ByteAt scope.symbols name index place)
    (defined : scope.symbols.Defined) (base : o.compound? = some op) (updatable : Updatable op n)
    (loc : Loc) (low : c.high = false) (free : c.accInUse = false) (none : c.deferred = []) :
    Ensures (stmt (.expr loc (.binary o (.var name index) (.int n)))) scope c fun _ d =>
      Ensures (stmt (.expr loc (.binary .assign (.var name index)
          (.binary op (.var name index) (.int n))))) scope c fun _ e =>
        ∃ short long, d.code = c.code ++ short ∧ e.code = c.code ++ long ∧
          ∀ s, s.decimal = false → ∃ t u, Steps w short ⟨short, s⟩ ⟨[], t⟩ ∧
            Steps w long ⟨long, s⟩ ⟨[], u⟩ ∧ t.Alike u ∧ (place.fill w scope.symbols
              (updatedBy op place.signed n (place.seen w scope.symbols s)) s).Alike t := by
  have assigns : o.isAssign = true := by
    cases o <;> first | rfl | cases base
  have value : (lower (.binary op (.var name index) (.int n))).value =
      arithOrShift op (lower (.var name index)).toOperand (lower (.int n)).toOperand := by
    cases updatable <;> rfl
  refine (stmt_updates (w := w) located defined assigns (fun begun low free =>
    emits_updateByte located defined base updatable low free) low free none).mono ?_
  rintro _ d ⟨short, added, runs⟩
  have stored (begun : Context) (low : begun.high = false) (free : begun.accInUse = false) :
      Emits w scope begun (assignByte .assign (lower (.var name index)).toOperand
        (lower (.binary op (.var name index) (.int n))).toOperand) fun _ d g =>
          Passed begun d ∧ ∀ s, UpdatesTo w scope.symbols place op n s (g s) := by
    change Emits w scope begun (storeValue _ (lower _).value) _
    rw [value]
    exact emits_storeUpdate located defined updatable low free
  refine (stmt_updates located defined rfl stored low free none).mono ?_
  rintro _ e ⟨long, added', runs'⟩
  refine ⟨short, long, added, added', fun s binary => ?_⟩
  obtain ⟨t, steps, updated⟩ := runs s
  obtain ⟨u, steps', updated'⟩ := runs' s
  exact ⟨t, u, steps, steps', (updated binary).symm.trans (updated' binary), updated binary⟩

end Updates

def shelfSymbols : Table where
  vars := [{ name := "t", size := 1, length := 4 }]

theorem shelfSymbols_defined : shelfSymbols.Defined :=
  .of_entries rfl

def shelfPlaces : Surroundings where
  address _ := 0x200
  verbatim _ _ := none
  call _ _ := none

/-- X selects the second of four bytes. -/
def shelfStart : State where
  x := 1
  memory := ({} : Memory).write 0x201 0xFB

def shelfElement : Expr :=
  .var "t" (.var "X" .absent)

theorem goesThrough_shelf : ∀ p ∈ [(Expr.binary .shlAssign shelfElement (.int 3), 3),
      (.binary .assign shelfElement (.binary .shl shelfElement (.int 3)), 5)],
    goesThrough (stmt (.expr {} p.1)) ⟨shelfSymbols, { name := "main" }⟩ {}
      (·.code.length == p.2) = true := by
  decide +kernel

/--
The element that X selects is doubled thrice by either statement, by three instructions in its place
or by five with the accumulator.
-/
theorem doubled_element_agrees : ∃ d e t u,
    stmt (.expr {} (.binary .shlAssign shelfElement (.int 3)))
        ⟨shelfSymbols, { name := "main" }⟩ {} = .ok () d ∧ d.code.length = 3 ∧
      stmt (.expr {} (.binary .assign shelfElement (.binary .shl shelfElement (.int 3))))
        ⟨shelfSymbols, { name := "main" }⟩ {} = .ok () e ∧ e.code.length = 5 ∧
      Steps shelfPlaces d.code ⟨d.code, shelfStart⟩ ⟨[], t⟩ ∧
        Steps shelfPlaces e.code ⟨e.code, shelfStart⟩ ⟨[], u⟩ ∧ t.Alike u ∧
          t.read 0x201 = 0xD8 := by
  have ensures := @compound_agrees shelfPlaces ⟨shelfSymbols, { name := "main" }⟩ {} "t"
    (.var "X" .absent) (.indexedX "t" false) .shl .shlAssign 3
    (.indexed (v := { name := "t", size := 1, length := 4 }) (by decide +kernel) rfl)
    shelfSymbols_defined rfl (.shl (by decide)) {} rfl rfl rfl
  obtain ⟨_, d, ran, three⟩ := exists_of_goesThrough (goesThrough_shelf _ (.head _))
  obtain ⟨_, e, ran', five⟩ := exists_of_goesThrough (goesThrough_shelf _ (.tail _ (.head _)))
  obtain ⟨short, long, added, added', runs⟩ := (ensures.of_ok ran).of_ok ran'
  cases added
  cases added'
  obtain ⟨t, u, steps, steps', agree, updated⟩ := runs shelfStart rfl
  refine ⟨d, e, t, u, ran, eq_of_beq three, ran', eq_of_beq five, steps, steps', agree, ?_⟩
  rw [updated.read]
  decide +kernel

end Backend6502.Lowering
