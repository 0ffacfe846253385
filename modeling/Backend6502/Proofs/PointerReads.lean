import Backend6502.Proofs.BytePlaces
import Backend6502.Proofs.SignedComparisons

/-!
# Two reads through pointers

What a pointer points to is read with the index in Y, and the place of such a byte does not say
which index that is. If both operands are read through pointers, Y is set for the one and then for
the other, and only then are the bytes read. So both are read with the index of the right operand,
and the byte that counts on the left is the intended one only if the two indices are the same.
-/

namespace Backend6502.Lowering

open Code (Surroundings Steps Point labelNames)
open Cpu (Memory State)
open Source (Op Expr Loc Stmt extended)
open Symbols (Table Variable)

/-- The byte that stands behind what a pointer points to by some distance. -/
def pointedAt (w : Surroundings) (name : String) (k : UInt8) (s : State) : UInt8 :=
  s.read (s.readWord (w.address ("(" ++ name ++ "),Y")).toUInt8.toUInt16 + k.toUInt16)

/-- The expression reads through a pointer, with a number for an index. -/
inductive PointsAt (table : Table) : Expr → Variable → Int64 → Prop where
  | element {name : String} {v : Variable} (found : table.getVariable? name = some v)
      (pointer : v.pointer = true) (k : Int64) : PointsAt table (.var name (.int k)) v k
  | deref {name : String} {v : Variable} (found : table.getVariable? name = some v)
      (pointer : v.pointer = true) : PointsAt table (.unary .deref (.var name .absent)) v 0

section Reads

variable {w : Surroundings} {scope : Scope} {c : Context} {e lhs rhs : Expr} {v p q : Variable}
  {i j k : Int64}

/-- The code has set Y and has done nothing else that shows. -/
def SetsY (k : UInt8) (g : State → State) : Prop :=
  ∀ s : State, ({ s with y := k } : State).Alike (g s)

theorem SetsY.seen {g : State → State} {b : UInt8} (sets : SetsY b g) (name : String)
    (signed : Bool) (s : State) :
    (Place.indexedY name signed).seen w scope.symbols (g s) = pointedAt w name b s := by
  rw [Place.seen_alike (sets s) rfl]
  rfl

theorem PointsAt.pointer {table : Table} (points : PointsAt table e v k) :
    (Place.indexedY v.name v.signed).isReached table = true ∧ constant? table e = none := by
  cases points with
  | element found pointer =>
    refine ⟨?_, rfl⟩
    rw [Place.isReached, isPointer, (Table.of_getVariable? found).2, found]
    exact pointer
  | deref found pointer =>
    refine ⟨?_, by rw [constant?]; split <;> rfl⟩
    rw [Place.isReached, isPointer, (Table.of_getVariable? found).2, found]
    exact pointer

/-- Y is set to the index, and the place names the pointer alone. -/
theorem PointsAt.emits (points : PointsAt scope.symbols e v k) (defined : scope.symbols.Defined)
    (low : c.high = false) : Emits w scope c (lower e).value fun place d g =>
      place = .indexedY v.name v.signed ∧ Passed c d ∧ SetsY (lowByte k) g := by
  have indexes (b : UInt8) : Emits w scope c (do
      if ← inHigh then extend (.indexedY v.name v.signed)
      else do
        emitByte .ldy b
        return .indexedY v.name v.signed) fun place d g =>
      place = .indexedY v.name v.signed ∧ Passed c d ∧ SetsY b g := by
    refine .inHigh ?_
    rw [low, if_neg Bool.false_ne_true]
    refine .bind (.emitByte rfl b) ?_
    rintro _ d g ⟨⟨code, rfl⟩, run⟩
    refine .pure ⟨rfl, .of_coded _ _ _, fun s => ?_⟩
    rw [Function.comp_apply, id_eq, run]
    exact ⟨rfl, rfl, rfl, rfl, rfl⟩
  cases points with
  | element found pointer =>
    intro place d ok
    obtain ⟨-, ok⟩ := readElement_same defined found rfl ok
    unfold readElement at ok
    have ok : readConstantElement v k scope c = .ok place d := check_eq_ok (check_eq_ok ok)
    rw [readConstantElement, if_pos pointer] at ok
    exact indexes _ place d ok
  | @deref name _ found pointer =>
    change Emits w scope c (Lowering.deref (.var name .absent)) _
    refine .symbols ?_
    rw [found]
    dsimp only
    rw [pointer, if_neg (by decide)]
    exact indexes 0

/-- The index that Y is set to last is the one of the right operand. -/
theorem emits_bothPointed (left : PointsAt scope.symbols lhs p i)
    (right : PointsAt scope.symbols rhs q j) (defined : scope.symbols.Defined)
    (low : c.high = false) :
    Emits w scope c (bothValues (lower lhs).toOperand (lower rhs).toOperand) fun places d g =>
      places = (.indexedY p.name p.signed, .indexedY q.name q.signed) ∧ Passed c d ∧
        SetsY (lowByte j) g := by
  refine .accInUse (.bind (left.emits defined low) ?_)
  rintro _ d g ⟨rfl, passed, first⟩
  have notAcc : (Place.indexedY p.name p.signed).isAccumulator = false := rfl
  rw [notAcc, if_neg Bool.false_ne_true]
  refine .bind (right.emits defined (passed.high.trans low)) ?_
  rintro _ e h ⟨rfl, further, second⟩
  refine .modify rfl
    (.pure ⟨rfl, ⟨(passed.trans further).high, rfl, (passed.trans further).deferred⟩, fun s => ?_⟩)
  have before := first s
  have between : ({ s with y := lowByte j } : State).Alike { g s with y := lowByte j } :=
    ⟨before.x, rfl, before.sp, before.decimal, before.memory⟩
  exact between.trans (second (g s))

end Reads

section Arithmetic

variable {w : Surroundings} {scope : Scope} {c : Context} {lhs rhs : Expr} {p q : Variable}
  {i j : Int64} {op : Op} {name : String} {index : Expr} {place : Place}

section

variable (left : PointsAt scope.symbols lhs p i) (right : PointsAt scope.symbols rhs q j)
  (defined : scope.symbols.Defined)
  (isOp : op.isByteOp = true)

include left right defined isOp

theorem emits_pointedArith (low : c.high = false) (free : c.accInUse = false) :
    Emits w scope c (lower (.binary op lhs rhs)).value fun v d g => v.isDirect = true ∧ Passed c d ∧
      ∀ s, s.decimal = false → ({ s with y := lowByte j } : State).Alike (g s) ∧
        v.byte w scope.symbols (g s) =
          op.onBytes (pointedAt w p.name (lowByte j) s) (pointedAt w q.name (lowByte j) s) := by
  have value : (lower (.binary op lhs rhs)).value =
      arith op (lower lhs).toOperand (lower rhs).toOperand := by
    cases op <;> first | rfl | cases isOp
  rw [value]
  refine (emits_arithValues isOp free (emits_bothPointed left right defined low) left.pointer.1
    nofun right.pointer.1 rfl).mono ?_
  rintro v d g ⟨isAcc, passed, h, sets, run⟩
  have direct : v.isDirect = true ∧ ∀ s, v.byte w scope.symbols s = s.a := by
    cases v <;> first | exact ⟨rfl, fun _ => rfl⟩ | cases isAcc
  refine ⟨direct.1, passed, fun s binary => ?_⟩
  obtain ⟨alike, result⟩ := run s ((sets s).decimal.trans binary)
  refine ⟨(sets s).trans alike, ?_⟩
  have result : (g s).a = _ := congrArg Prod.fst result
  rw [direct.2, result, low, Place.inPass_false, Place.inPass_false, sets.seen,
    sets.seen]
  exact withCarry_startCarry op _ _ _

/-- The two bytes are combined as they are found with the index of the right operand. -/
theorem stmt_assigns_pointed (located : ByteAt scope.symbols name index place) (loc : Loc)
    (low : c.high = false) (free : c.accInUse = false) (none : c.deferred = []) :
    Ensures (stmt (.expr loc (.binary .assign (.var name index) (.binary op lhs rhs)))) scope c
      fun _ d => ∃ code, d.code = c.code ++ code ∧ ∀ s : State, s.decimal = false →
        ∃ t, Steps w code ⟨code, s⟩ ⟨[], t⟩ ∧ (place.fill w scope.symbols
          (op.onBytes (pointedAt w p.name (lowByte j) s) (pointedAt w q.name (lowByte j) s))
          { s with y := lowByte j }).Alike t := by
  refine (located.stmt_assigns (w := w) (P := fun s u b => s.decimal = false →
      ({ s with y := lowByte j } : State).Alike u ∧ b = op.onBytes _ _) defined
    (fun _ => emits_pointedArith left right defined isOp) low free none).mono ?_
  rintro _ d ⟨code, added, runs⟩
  refine ⟨code, added, fun s binary => ?_⟩
  obtain ⟨t, steps, u, b, holds, stored⟩ := runs s
  obtain ⟨alike, rfl⟩ := holds binary
  exact ⟨t, steps, (Place.fill_alike alike).trans stored⟩

end

end Arithmetic

section Comparisons

variable {w : Surroundings} {scope : Scope} {c : Context} {lhs rhs : Expr} {p q : Variable}
  {i j : Int64} {op : Op} {label : String} {negate : Bool}

/-- How two bytes compare, which goes by the sign of their difference if one of them has a sign. -/
def comparesAs (signed : Bool) (op : Op) (l r : UInt8) : Bool :=
  if signed then op.ordersBySign (extended true l) (extended true r) else op.compares l r

theorem answersBy_of_tells {s : State} {signed : Bool} {l r : UInt8} (tells : s.Tells signed op l r)
    (compares : op.isCompare = true) : s.answersBy signed op = comparesAs signed op l r := by
  cases signed with
  | false => exact tells.answers compares
  | true => exact tells.shows.answersBy_sign compares

/-- The two bytes are compared as they are found with the index of the right operand. -/
theorem comparison_departs_pointed (left : PointsAt scope.symbols lhs p i)
    (right : PointsAt scope.symbols rhs q j) (defined : scope.symbols.Defined)
    (compares : op.isCompare = true) (none : c.deferred = []) :
    Ensures ((lower (.binary op lhs rhs)).test label negate) scope c fun _ d =>
      ∃ code, d.code = c.code ++ code ∧ (label ∉ labelNames code → ∀ s : State,
        Departs w label (comparesAs (p.signed || q.signed) op (pointedAt w p.name (lowByte j) s)
          (pointedAt w q.name (lowByte j) s) != negate) ({ s with y := lowByte j } : State).Alike
          code s) := by
  refine ensures_test fun u d ok => ?_
  have unknown : constant? scope.symbols (.binary op lhs rhs) = .none :=
    constant?_compare compares (.inl left.pointer.2)
  obtain ⟨places, between, e, read, compared, rfl⟩ :=
    compare_eq_ok (compare_of_test compares unknown ok)
  have both := emits_bothPointed (w := w) (c := { c with high := false }) left right defined rfl
  obtain ⟨_, -, -, rfl, -, -⟩ := both places between read
  let posed : Comparison := ⟨op, .indexedY p.name p.signed, .indexedY q.name q.signed⟩
  have answers := both.bind (f := fun _ => posed.answer (p.signed || q.signed))
    (Q := fun op' _ g => op'.isCompare = true ∧ ∀ s, True →
      (g s).answersBy (p.signed || q.signed) op' = comparesAs (p.signed || q.signed) op
        (pointedAt w p.name (lowByte j) s) (pointedAt w q.name (lowByte j) s) ∧
      ({ s with y := lowByte j } : State).Alike (g s)) ?_
  · unfold compareValues at compared
    have emitted : posed.emit label negate scope between = .ok u e := check_eq_ok compared
    obtain ⟨op', between', answered, branches⟩ := bind_inv emitted
    have whole : ((bothValues (lower lhs).toOperand (lower rhs).toOperand >>= fun _ =>
        posed.answer (p.signed || q.signed)) >>= fun op =>
          branchOn (if negate then negated op else op) (p.signed || q.signed) label) scope
            { c with high := false } = .ok u e :=
      bind_eq_ok.mpr ⟨op', between', bind_eq_ok.mpr ⟨_, _, read, answered⟩, branches⟩
    obtain ⟨code, added, departs⟩ := departs_of_answers _ (fun _ => True)
      (fun s => ({ s with y := lowByte j } : State).Alike) answers whole
    exact ⟨code, added, fun outside s => departs outside s trivial⟩
  · rintro _ d g ⟨-, passed, sets⟩
    have waits : d.deferred = [] := passed.deferred.trans none
    have nothing (step : Deferred) (inside : step ∈ d.deferred) :
        step.isByteStep scope.symbols = true := by
      rw [waits] at inside
      cases inside
    refine (emits_answerInOrder (G := testGround w defined) (l := posed.l) nothing passed.high
      left.pointer.1 right.pointer.1 rfl).mono ?_
    rintro _ e h ⟨rfl, -, tells, -⟩
    refine ⟨compares, fun s _ => ?_⟩
    obtain ⟨told, alike⟩ := tells (g s) fun _ zero => by cases zero
    rw [waits] at told alike
    refine ⟨?_, (sets s).trans alike⟩
    rw [Function.comp_apply, answersBy_of_tells told compares]
    exact congrArg₂ _ (sets.seen p.name p.signed s) (sets.seen q.name q.signed s)

/--
Of two operands that are read through pointers, both are read with the index of the right one. An
operation on them stores what it makes of these two bytes, and a comparison goes by them. So the
byte of the left operand counts if its index is the same in the lowest byte, and otherwise another
byte does.
-/
theorem pointed_by_right_index (left : PointsAt scope.symbols lhs p i)
    (right : PointsAt scope.symbols rhs q j) (defined : scope.symbols.Defined)
    (low : c.high = false) (free : c.accInUse = false) (none : c.deferred = []) :
    (∀ op name index place loc, op.isByteOp = true → ByteAt scope.symbols name index place →
      Ensures (stmt (.expr loc (.binary .assign (.var name index) (.binary op lhs rhs)))) scope c
        fun _ d => ∃ code, d.code = c.code ++ code ∧ ∀ s : State, s.decimal = false →
          ∃ t, Steps w code ⟨code, s⟩ ⟨[], t⟩ ∧ (place.fill w scope.symbols
            (op.onBytes (pointedAt w p.name (lowByte j) s) (pointedAt w q.name (lowByte j) s))
            { s with y := lowByte j }).Alike t) ∧
    ∀ op label negate, op.isCompare = true →
      Ensures ((lower (.binary op lhs rhs)).test label negate) scope c fun _ d =>
        ∃ code, d.code = c.code ++ code ∧ (label ∉ labelNames code → ∀ s : State,
          Departs w label (comparesAs (p.signed || q.signed) op (pointedAt w p.name (lowByte j) s)
            (pointedAt w q.name (lowByte j) s) != negate)
            ({ s with y := lowByte j } : State).Alike code s) :=
  ⟨fun _ _ _ _ loc isOp located =>
      stmt_assigns_pointed left right defined isOp located loc low free none,
    fun _ _ _ compares => comparison_departs_pointed left right defined compares none⟩

end Comparisons

def pointerScope : Scope where
  symbols :=
    { vars := [{ name := "a", size := 1 },
        { name := "p", size := 2, pointer := true, signed := true },
        { name := "q", size := 2, pointer := true }] }
  function := { name := "main" }

def pointerPlaces : Surroundings where
  address
    | "(p),Y" => 0x80
    | "(q),Y" => 0x82
    | _ => 0x200
  verbatim _ _ := none
  call _ _ := none

/-- Both pointers point to the bytes 1 and 4. -/
def pointerStart : State where
  memory := (((((({} : Memory).write 0x80 1).write 0x81 3).write 0x82 1).write 0x83 3).write 0x301
    1).write 0x302 4

theorem pointerScope_defined : pointerScope.symbols.Defined :=
  .of_entries rfl

/-- The assignment `a = *p + q[1]`. -/
def pointedSum : Stmt :=
  .expr {} (.binary .assign (.var "a" .absent)
    (.binary .add (.unary .deref (.var "p" .absent)) (.var "q" (.int 1))))

/-- The byte 4 is added to itself, and `q[1]` is not less than `p[0]`, as 1 is not less than 1. -/
theorem pointedSum_by_right_index : (∃ d t, stmt pointedSum pointerScope {} = .ok () d ∧
      Steps pointerPlaces d.code ⟨d.code, pointerStart⟩ ⟨[], t⟩ ∧ t.read 0x200 = 8) ∧
    ∃ d t, (lower (.binary .lt (.var "q" (.int 1)) (.var "p" (.int 0)))).test "out" true
        pointerScope {} = .ok () d ∧
      ∃ line rest, Steps pointerPlaces d.code ⟨d.code, pointerStart⟩ ⟨line :: rest, t⟩ ∧
        line.flow pointerPlaces t = .jump "out" := by
  have p (k : Int64) : PointsAt pointerScope.symbols (.var "p" (.int k)) _ k := .element rfl rfl k
  have q (k : Int64) : PointsAt pointerScope.symbols (.var "q" (.int k)) _ k := .element rfl rfl k
  have star : PointsAt pointerScope.symbols (.unary .deref (.var "p" .absent)) _ 0 := .deref rfl rfl
  constructor
  · have ensures := (pointed_by_right_index (w := pointerPlaces) (c := {}) star (q 1)
      pointerScope_defined rfl rfl rfl).1 .add "a" .absent _ {} rfl (.scalar rfl rfl)
    have goes : goesThrough (stmt pointedSum) pointerScope {} (fun _ => true) = true := by
      decide +kernel
    obtain ⟨d, ran, -, runs⟩ := ensures.exists_code rfl goes
    obtain ⟨t, steps, alike⟩ := runs pointerStart rfl
    refine ⟨d, t, ran, steps, (alike.read 0x200).trans ?_⟩
    decide +kernel
  · have ensures := (pointed_by_right_index (w := pointerPlaces) (c := {}) (q 1) (p 0)
      pointerScope_defined rfl rfl rfl).2 .lt "out" true rfl
    have goes :
        goesThrough ((lower (.binary .lt (.var "q" (.int 1)) (.var "p" (.int 0)))).test "out" true)
          pointerScope {} (fun d => !(labelNames d.code).contains "out") = true := by
      decide +kernel
    obtain ⟨d, ran, outside, departs⟩ := ensures.exists_code rfl goes
    obtain ⟨line, rest, t, steps, leaves, -, -⟩ :=
      (departs (by simpa using outside) pointerStart).jumps (by decide +kernel)
    exact ⟨d, t, ran, line, rest, steps, leaves⟩

/-- The code of the assignment does not store the sum of the bytes `p[0]` and `q[1]`. -/
theorem pointedSum_missed : ∃ d t, stmt pointedSum pointerScope {} = .ok () d ∧
      Steps pointerPlaces d.code ⟨d.code, pointerStart⟩ ⟨[], t⟩ ∧
        t.read 0x200 ≠ pointedAt pointerPlaces "p" 0 pointerStart +
          pointedAt pointerPlaces "q" 1 pointerStart := by
  obtain ⟨_, d, t, ran, steps, stored⟩ := @exists_run_of_goesThrough _ (stmt pointedSum)
    pointerPlaces pointerScope {} pointerStart (·.read 0x200 == 8) 9 (by decide +kernel)
  refine ⟨d, t, ran, steps, ?_⟩
  rw [beq_iff_eq.mp stored]
  decide +kernel

end Backend6502.Lowering
