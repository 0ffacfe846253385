import Backend6502.Proofs.Operands

/-!
# The passes over a word

A word is computed in two passes over the same operands. Each pass combines one byte of both, in the
accumulator or, if both are constant, in advance. The pass for low bytes sets the carry as the
operation needs it, and the pass for high bytes takes the carry as it finds it.

A variable of 16 bits stands in memory in both passes, each time with another byte. An unsigned byte
or an index register is zero in the pass for high bytes, and a constant is the same number in both.
-/

namespace Backend6502.Lowering

open Code (Surroundings)
open Cpu (State Mnemonic byteOf)
open Source (Op Expr)
open Symbols (Table)

variable {c d : Context} {op : Op} {place : Place} {lhs rhs : Operand} {spotL spotR : Bool → Place}

namespace Place

/-- The byte that a place stands for in a pass. -/
def part (w : Surroundings) (table : Table) (high : Bool) (s : State) (place : Place) : UInt8 :=
  (place.inPass high).byte w table s

/--
Can an operand stand here in a pass? There it is read as it is, and no register has a high byte.
-/
def isOperandIn (high : Bool) : Place → Bool
  | .immediate _ | .cell .. => true
  | .x | .y => !high
  | _ => false

variable {w : Surroundings} {table : Table} {high : Bool} {s t : State} {place : Place}

theorem part_immediate (n : Int64) :
    (Place.immediate n).part w table high s = byteOf high (Source.lowWord n) :=
  (Source.byteOf_lowWord high n).symm

theorem part_scratched (b : UInt8) (apart : place.access w table ≠ .address (scratchAddress w)) :
    place.part w table high (s.write (scratchAddress w) b) = place.part w table high s := by
  refine byte_write b ?_
  cases place with
  | immediate => exact nofun
  | _ => exact apart

theorem notAcc_of_isOperandIn (operand : place.isOperandIn high = true) :
    place.isAccumulator = false := by
  cases place <;> first | rfl | cases operand

theorem seen_of_isOperandIn (operand : place.isOperandIn high = true) :
    place.isReadable table = true ∧ (place.inPass high).seen w table s =
      place.part w table high s := by
  cases place <;> first | exact ⟨rfl, rfl⟩ | cases operand

theorem seen_of_isDirect (direct : place.isDirect = true) :
    place.isReached table = true ∧ (place.inPass high).seen w table s =
      place.part w table high s := by
  cases place <;> first | exact ⟨rfl, rfl⟩ | cases direct

end Place

/-- What the code of a pass leaves as it is. -/
structure Passed (c d : Context) : Prop where
  high : d.high = c.high
  acc : d.accInUse = c.accInUse
  deferred : d.deferred = c.deferred

theorem Passed.trans {e : Context} (first : Passed c d) (second : Passed d e) : Passed c e :=
  ⟨second.high.trans first.high, second.acc.trans first.acc, second.deferred.trans first.deferred⟩

theorem Passed.of_coded (code : List Code.Line) (flags : Flags) (scratchInUse : Bool) :
    Passed c { c with code, flags, scratchInUse } :=
  ⟨rfl, rfl, rfl⟩

section Combining

variable {w : Surroundings} {scope : Scope}
variable {l r : Place}

/-- Emitting an instruction is a step of a pass that does what the instruction does. -/
theorem Emits.passing {m : Gen α} {h : State → State} {P : (State → State) → Prop} {flags : Flags}
    {scratchInUse : Bool}
    (emits : Emits w scope c m fun _ d g =>
      (∃ code, d = { c with code, flags, scratchInUse }) ∧ ∀ s, g s = h s)
    (does : P h) : Emits w scope c m fun _ d g => Passed c d ∧ P g := by
  refine emits.mono ?_
  rintro _ d g ⟨⟨code, rfl⟩, run⟩
  obtain rfl := funext run
  exact ⟨.of_coded _ _ _, does⟩

/-- What a pass makes of the bytes at two places: a byte and a carry. -/
def combined (w : Surroundings) (table : Table) (op : Op) (high : Bool) (l r : Place) (s : State) :
    UInt8 × Bool :=
  op.withCarry (carryIn op high s.carry) (l.part w table high s) (r.part w table high s)

theorem emits_applyPass {m : Mnemonic} (maps : arithMnemonic? op = some m)
    (free : c.accInUse = false) (left : l.isReadable scope.symbols = true)
    (right : r.isReached scope.symbols = true) (other : r.isAccumulator = false) :
    Emits w scope c (apply op m l r) fun p d g => p.isAccumulator = true ∧ Passed c d ∧
      ∀ s : State, s.decimal = false → s.Alike (g s) ∧
        ((g s).a, (g s).carry) = op.withCarry (carryIn op c.high s.carry)
          ((l.inPass c.high).seen w scope.symbols s)
            ((r.inPass c.high).seen w scope.symbols s) := by
  have notAcc : l.isAccumulator = false := by
    cases l <;> first | rfl | cases left
  unfold apply
  refine .accInUse ?_
  rw [free, notAcc, Bool.not_false, if_pos rfl]
  refine .get (.check fun _ => ?_)
  rw [show save false = (pure () : Gen Unit) from rfl, pure_bind]
  refine .bind (.loadPass left) ?_
  rintro _ d g ⟨⟨code, rfl⟩, loaded⟩
  refine .bind (.carryPass op) ?_
  rintro _ e h ⟨⟨others, rfl⟩, ready⟩
  refine .bind (.operatePass maps right) ?_
  rintro _ f k ⟨⟨more, rfl⟩, operated⟩
  refine .pure ⟨rfl, .of_coded _ _ _, fun s binary => ?_⟩
  have alike : s.Alike (g s) := by
    rw [loaded]
    exact ⟨rfl, rfl, rfl, rfl, rfl⟩
  obtain ⟨alike', same, carry⟩ := ready (g s)
  have together := alike.trans alike'
  obtain ⟨alike'', outcome, -⟩ := operated (h (g s)) (together.decimal.trans binary)
  refine ⟨together.trans alike'', ?_⟩
  change ((k (h (g s))).a, (k (h (g s))).carry) = _
  have notAcc : (r.inPass c.high).isAccumulator = false := by
    cases r <;> first | rfl | cases other
  rw [outcome, carry, same, Place.seen_alike together notAcc, loaded]
  rfl

theorem withCarry_comm (commutes : isCommutative op = true) (carry : Bool) (a b : UInt8) :
    op.withCarry carry a b = op.withCarry carry b a := by
  cases op with
  | add => simp only [Op.withCarry, Nat.add_comm a.toNat]
  | and | or | xor => exact congrArg (·, carry) (onBytes_comm commutes a b)
  | _ => cases commutes

theorem emits_spillPass (index : place.isIndexRegister = true) :
    Emits w scope c (spill place) fun p d g => p = .scratch place.signed ∧ Passed c d ∧
      ∀ s : State, g s = s.write (scratchAddress w) (place.byte w scope.symbols s) := by
  refine .get (.check fun _ => ?_)
  cases isStored : storeOf? place with
  | none => cases place <;> first | (cases index; done) | cases isStored
  | some m =>
    refine .bind (.storePass isStored rfl nofun) ?_
    rintro _ d g ⟨⟨code, rfl⟩, run⟩
    exact .modify rfl (.pure ⟨rfl, .of_coded _ _ _, run⟩)

/-- The right operand leaves the index registers, and the outcome stays the same. -/
theorem emits_freeIndexPass (left : l.isOperandIn c.high = true)
    (right : r.isOperandIn c.high = true)
    (apart : l.access w scope.symbols ≠ .address (scratchAddress w)) :
    Emits w scope c (freeIndexRegister op l r) fun p d g =>
      p.1.isOperandIn c.high = true ∧ p.2.isDirect = true ∧ p.2.isAccumulator = false ∧
        Passed c d ∧ ∀ s : State, Untouched w s (g s) ∧ (g s).carry = s.carry ∧
          ∀ carry, op.withCarry carry (p.1.part w scope.symbols c.high (g s))
              (p.2.part w scope.symbols c.high (g s)) =
            op.withCarry carry (l.part w scope.symbols c.high s)
              (r.part w scope.symbols c.high s) := by
  refine .ite (fun index => .ite (fun commutes => ?_) fun _ => ?_) fun other => ?_
  · obtain ⟨commutes, notRegister⟩ := Bool.and_eq_true_iff.mp commutes
    refine .pure ⟨right, ?_, Place.notAcc_of_isOperandIn left, .of_coded _ _ _, fun s =>
      ⟨.of_alike (.refl s), rfl, fun carry => withCarry_comm commutes carry _ _⟩⟩
    cases l <;> first | rfl | cases left | cases notRegister
  · refine .bind (emits_spillPass index) fun p d g ⟨same, passed, run⟩ => .pure ?_
    cases same
    refine ⟨left, rfl, rfl, passed, fun s => ?_⟩
    have spilled : (Place.scratch r.signed).part w scope.symbols c.high (g s) =
        r.part w scope.symbols c.high s := by
      rw [run]
      refine (State.read_write _ _ _ _).trans ((if_pos rfl).trans ?_)
      cases r <;> first | rfl | cases index
    refine ⟨by rw [Function.comp_apply, id_eq, run]; exact .scratched s _,
      by rw [Function.comp_apply, id_eq, run]; rfl, fun carry => ?_⟩
    change op.withCarry carry (l.part w scope.symbols c.high (g s)) _ = _
    rw [Function.comp_apply, id_eq, spilled, run, Place.part_scratched _ apart]
  · refine .pure ⟨left, ?_, Place.notAcc_of_isOperandIn right, .of_coded _ _ _, fun s =>
      ⟨.of_alike (.refl s), rfl, fun _ => rfl⟩⟩
    cases r <;> first | rfl | exact absurd rfl other | cases right

/-- The step adds no code, and what it yields depends on the pass only. -/
def Rests (scope : Scope) (m : Gen Place) (spot : Bool → Place) : Prop :=
  ∀ c place d, m scope c = .ok place d → d = c ∧ place = spot c.high

theorem carries_same {e : Expr} {carried : Bool} (ok : carries e scope c = .ok carried d) :
    d = c := by
  unfold carries at ok
  split at ok
  · split at ok <;> cases ok <;> rfl
  · cases ok
    rfl

/-- What the pass for high bytes cannot do is an error; nothing else comes of it. -/
theorem checkHighArith_same {lhs rhs : Expr} {u : Unit}
    (ok : checkHighArith op lhs rhs scope c = .ok u d) : d = c := by
  obtain ⟨high, _, ⟨⟩, ok⟩ := bind_inv ok
  split at ok
  · obtain ⟨table, _, read, ok⟩ := bind_inv ok
    cases read
    have ok := check_eq_ok ok
    split at ok
    · obtain ⟨_, _, read, ok⟩ := bind_inv ok
      cases carries_same read
      have ok := check_eq_ok ok
      obtain ⟨_, _, read, ok⟩ := bind_inv ok
      cases carries_same read
      split at ok <;> cases ok
      rfl
    · cases ok
      rfl
  · cases ok
    rfl

theorem bothValues_rests
    (first : Rests scope lhs.value spotL) (second : Rests scope rhs.value spotR)
    (other : (spotL c.high).isAccumulator = false) {p : Place × Place}
    (ok : bothValues lhs rhs scope c = .ok p d) : d = c ∧ p = (spotL c.high, spotR c.high) := by
  obtain ⟨same, left, right⟩ := bothValues_same (P := (· = spotL c.high))
    (fun place d ok => by
      obtain ⟨same, rfl⟩ := first c place d ok
      exact ⟨same, other, rfl⟩)
    (second c) ok
  exact ⟨same, Prod.ext left right⟩

/-- Two values that can be read where they are, and are not both constant, are combined. -/
theorem emits_arithValues {R : (State → State) → Prop}
    (isOp : op.isByteOp = true) (free : c.accInUse = false)
    (values : Emits w scope c (bothValues lhs rhs) fun p d g => p = (l, r) ∧ Passed c d ∧ R g)
    (left : l.isReadable scope.symbols = true) (varies : ∀ n, l ≠ .immediate n)
    (right : r.isReached scope.symbols = true) (other : r.isRegister = false) :
    Emits w scope c (arith op lhs rhs) fun p d g => p.isAccumulator = true ∧ Passed c d ∧
      ∃ h, R h ∧ ∀ s : State, (h s).decimal = false → (h s).Alike (g s) ∧
        ((g s).a, (g s).carry) = op.withCarry (carryIn op c.high (h s).carry)
          ((l.inPass c.high).seen w scope.symbols (h s))
          ((r.inPass c.high).seen w scope.symbols (h s)) := by
  obtain ⟨m, maps, instruction⟩ := instructionOf_eq isOp
  refine .reading (P := fun _ => True) (fun _ _ ok => ⟨checkHighArith_same ok, trivial⟩)
    fun _ _ => .bind values ?_
  rintro p d g ⟨same, passed, holds⟩
  cases same
  dsimp only
  split
  · exact absurd rfl (varies _)
  · have notAcc : r.isAccumulator = false ∧ r.isIndexRegister = false := by
      cases r <;> first | exact ⟨rfl, rfl⟩ | cases other
    rw [instruction, pure_bind]
    refine .check fun _ => ?_
    unfold freeAccumulator freeIndexRegister
    rw [notAcc.1, if_neg Bool.false_ne_true, pure_bind]
    dsimp only
    rw [notAcc.2, if_neg Bool.false_ne_true, pure_bind]
    refine (emits_applyPass maps (passed.acc.trans free) left right notAcc.1).mono ?_
    rintro p e h ⟨isAcc, passed', run⟩
    rw [passed.high] at run
    exact ⟨isAcc, passed.trans passed', g, holds, fun s binary => run (g s) binary⟩

/-- A byte has been computed and a carry left, in the accumulator or as a constant. -/
structure Valued (w : Surroundings) (table : Table) (b : State → UInt8) (k : State → Bool)
    (c : Context) (place : Place) (d : Context) (g : State → State) : Prop where
  stands : place.isAccumulator = true ∨ ∃ n, place = .immediate n
  passed : Passed c d
  run : ∀ s : State, s.decimal = false →
    Untouched w s (g s) ∧ place.part w table c.high (g s) = b s ∧ (g s).carry = k s

/-- What a pass leaves: two constants are combined in advance, and the carry stays as it is. -/
def outcome (w : Surroundings) (table : Table) (op : Op) (high : Bool) (l r : Place) (s : State) :
    UInt8 × Bool :=
  match l, r with
  | .immediate a, .immediate b =>
    ((Place.immediate (op.onNumbers a b)).part w table high s, s.carry)
  | l, r => combined w table op high l r s

theorem outcome_of_varies {table : Table} {high : Bool}
    (varies : ∀ a b, ¬(l = .immediate a ∧ r = .immediate b)) (s : State) :
    outcome w table op high l r s = combined w table op high l r s := by
  unfold outcome
  split
  · next a b => exact absurd ⟨rfl, rfl⟩ (varies a b)
  · rfl

theorem emits_arithPass (isOp : op.isByteOp = true) (free : c.accInUse = false)
    (first : Rests scope lhs.value spotL) (second : Rests scope rhs.value spotR)
    (left : (spotL c.high).isOperandIn c.high = true)
    (right : (spotR c.high).isOperandIn c.high = true)
    (apart : (spotL c.high).access w scope.symbols ≠ .address (scratchAddress w)) :
    Emits w scope c (arith op lhs rhs) (Valued w scope.symbols
      (fun s => (outcome w scope.symbols op c.high (spotL c.high) (spotR c.high) s).1)
      (fun s => (outcome w scope.symbols op c.high (spotL c.high) (spotR c.high) s).2) c) := by
  refine .reading (P := fun _ => True) (fun _ _ ok => ⟨checkHighArith_same ok, trivial⟩)
    fun _ _ => ?_
  refine .reading (fun _ _ => bothValues_rests first second (Place.notAcc_of_isOperandIn left))
    fun p same => ?_
  cases same
  obtain ⟨m, maps, instruction⟩ := instructionOf_eq isOp
  dsimp only
  split
  · next a b isLeft isRight =>
    rw [isLeft, isRight, Expr.fold_eq_onNumbers isOp]
    exact .pure ⟨.inr ⟨_, rfl⟩, ⟨rfl, rfl, rfl⟩, fun s _ => ⟨.of_alike (.refl s), rfl, rfl⟩⟩
  · next varies =>
    have varies (a b : Int64) : ¬(spotL c.high = .immediate a ∧ spotR c.high = .immediate b) :=
      fun both => varies a b both.1 both.2
    rw [instruction, pure_bind]
    refine .check fun _ => ?_
    unfold freeAccumulator
    rw [Place.notAcc_of_isOperandIn right, if_neg Bool.false_ne_true, pure_bind]
    refine .bind (emits_freeIndexPass left right apart) ?_
    rintro ⟨l, r⟩ d g ⟨leftNow, direct, notAcc, passed, moved⟩
    dsimp only at leftNow direct notAcc moved ⊢
    have freeNow : d.accInUse = false := passed.acc.trans free
    have seenL (s : State) : l.isReadable scope.symbols = true ∧
        (l.inPass c.high).seen w scope.symbols s = _ := Place.seen_of_isOperandIn leftNow
    have seenR (s : State) : r.isReached scope.symbols = true ∧
        (r.inPass c.high).seen w scope.symbols s = _ := Place.seen_of_isDirect direct
    refine (emits_applyPass maps freeNow (seenL {}).1 (seenR {}).1 notAcc).mono
      fun place e h ⟨isAcc, passed', run⟩ => ⟨.inl isAcc, passed.trans passed', fun s binary => ?_⟩
    obtain ⟨untouched, carry, reached⟩ := moved s
    obtain ⟨alike, value⟩ := run (g s) (untouched.decimal.trans binary)
    rw [passed.high, (seenL (g s)).2, (seenR (g s)).2, carry, reached] at value
    have inAcc : place.part w scope.symbols c.high (h (g s)) = (h (g s)).a := by
      cases place <;> first | rfl | cases isAcc
    rw [outcome_of_varies varies]
    refine ⟨untouched.trans (.of_alike alike), inAcc.trans ?_, ?_⟩
    · exact congrArg Prod.fst value
    · exact congrArg Prod.snd value

/-- Two constants are combined in advance, and no code is needed. -/
theorem arith_same {a b : Int64} (isOp : op.isByteOp = true)
    (first : Rests scope lhs.value spotL) (second : Rests scope rhs.value spotR)
    (left : spotL c.high = .immediate a) (right : spotR c.high = .immediate b)
    (ok : arith op lhs rhs scope c = .ok place d) :
    d = c ∧ place = .immediate (op.onNumbers a b) := by
  obtain ⟨_, _, checks, ok⟩ := bind_inv ok
  cases checkHighArith_same checks
  obtain ⟨p, _, values, ok⟩ := bind_inv ok
  obtain ⟨same, rfl⟩ := bothValues_rests first second (by rw [left]; rfl) values
  cases same
  dsimp only at ok
  rw [left, right] at ok
  dsimp only at ok
  rw [Expr.fold_eq_onNumbers isOp] at ok
  cases ok
  exact ⟨rfl, rfl⟩

end Combining

open Cpu (Access)
open Source (isByteCell isCell)
open Symbols (Variable)

variable {table : Table} {name : String} {v : Variable}

/-- Where an operand stands in each of the passes. -/
inductive Spots (table : Table) : Expr → (Bool → Place) → Prop where
  | word {name : String} {v : Variable} (found : wideVariable? table (.var name .absent) = some v) :
      Spots table (.var name .absent) fun high => .cell name false (if high then 1 else 0) v.signed
  | byte {name : String} {v : Variable} (found : table.getVariable? name = some v)
      (isByte : isByteCell v = true) (unsigned : v.signed = false) :
      Spots table (.var name .absent) fun high =>
        if high then .immediate 0 else .cell name true 0 false
  | x : Spots table (.var "X" .absent) fun high => if high then .immediate 0 else .x
  | y : Spots table (.var "Y" .absent) fun high => if high then .immediate 0 else .y
  | fixed {e : Expr} {n : Int64} (isFixed : e.isFixed table = true)
      (value : ∀ β, e.asNumber table β = n) : Spots table e fun _ => .immediate n

variable {w : Surroundings} {scope : Scope} {e : Expr} {spot : Bool → Place}

theorem wideVariable?_eq_some (found : wideVariable? table (.var name .absent) = some v) :
    table.getVariable? name = some v ∧ v.name = name ∧ v.size = 2 ∧ v.isConst = false := by
  obtain ⟨found, kind⟩ := Option.filter_eq_some_iff.mp found
  obtain ⟨size, varies⟩ := Bool.and_eq_true_iff.mp kind
  exact ⟨found, (Table.of_getVariable? found).2, eq_of_beq size, by simpa using varies⟩

theorem readVariable_same {c d : Context} {place : Place} (plain : isRegisterName name = false)
    (found : scope.symbols.getVariable? name = some v)
    (ok : readVariable name .absent scope c = .ok place d) :
    (if v.isConst && v.length == 0 then pure (.immediate v.value) else readScalar v) scope c =
      .ok place d := by
  unfold readVariable at ok
  rw [plain, if_neg Bool.false_ne_true] at ok
  obtain ⟨table, _, ⟨⟩, ok⟩ := bind_inv ok
  rw [found] at ok
  exact ok

theorem Scope.plain_of_found (defined : scope.symbols.Defined)
    (found : scope.symbols.getVariable? name = some v) : isRegisterName name = false := by
  refine eq_false_of_ne_true fun register => ?_
  rw [Scope.registers_free defined name register] at found
  cases found

theorem narrow_of_isByteCell (found : table.getVariable? name = some v)
    (isByte : isByteCell v = true) : wideVariable? table (.var name .absent) = none := by
  simp only [isByteCell, Bool.and_eq_true, beq_iff_eq] at isByte
  simp [wideVariable?, found, isByte.1.1]

theorem wideVariable?_eq_none_of_isFixed (isFixed : e.isFixed table = true) :
    wideVariable? table e = none := by
  cases e with
  | var name index =>
    cases index with
    | absent =>
      cases found : table.getVariable? name with
      | none => simp [wideVariable?, found]
      | some v =>
        have both : v.isConst = true ∧ v.length = 0 := by
          simpa [Expr.isFixed, found] using isFixed
        simp [wideVariable?, found, both]
    | _ => rfl
  | _ => rfl

theorem rests_word (defined : scope.symbols.Defined)
    (wide : wideVariable? scope.symbols (.var name .absent) = some v) :
    Rests scope (readVariable name .absent) fun high =>
      .cell name false (if high then 1 else 0) v.signed := by
  intro c place d ok
  obtain ⟨found, named, size, varies⟩ := wideVariable?_eq_some wide
  have ok := readVariable_same (Scope.plain_of_found defined found) found ok
  rw [varies, Bool.false_and, if_neg Bool.false_ne_true, readScalar, if_pos size] at ok
  cases ok
  rw [named]
  exact ⟨rfl, rfl⟩

theorem rests_byte (defined : scope.symbols.Defined)
    (found : scope.symbols.getVariable? name = some v) (isByte : isByteCell v = true)
    (unsigned : v.signed = false) : Rests scope (readVariable name .absent) fun high =>
      if high then .immediate 0 else .cell name true 0 false := by
  intro c place d ok
  have named : v.name = name := (Table.of_getVariable? found).2
  have narrow : v.size ≠ 2 := by
    intro wide
    simp [isByteCell, wide] at isByte
  have ok := readVariable_same (Scope.plain_of_found defined found) found ok
  rw [isConst_of_isByteCell isByte, Bool.false_and, if_neg Bool.false_ne_true, readScalar,
    if_neg narrow, named, unsigned] at ok
  obtain ⟨high, _, ⟨⟩, ok⟩ := bind_inv ok
  cases isHigh : c.high with
  | true | false =>
    rw [isHigh] at ok
    cases ok
    exact ⟨rfl, rfl⟩

theorem rests_register (register : isRegisterName name = true) :
    Rests scope (readVariable name .absent) fun high =>
      if high then .immediate 0 else if name == "X" then .x else .y := by
  intro c place d ok
  unfold readVariable at ok
  rw [if_pos register] at ok
  obtain ⟨high, _, ⟨⟩, ok⟩ := bind_inv ok
  cases isHigh : c.high with
  | true | false =>
    rw [isHigh] at ok
    cases ok
    exact ⟨rfl, rfl⟩

/-- The code of a constant is empty in either pass. -/
theorem rests_fixed
    (defined : scope.symbols.Defined)
    (β : Source.Bytes) : ∀ {e : Expr}, e.isFixed scope.symbols = true →
      Rests scope (lower e).value fun _ => .immediate (e.asNumber scope.symbols β)
  | .int n, _ => by
      intro c place d ok
      cases ok
      exact ⟨rfl, rfl⟩
  | .var name .absent, isFixed => by
      intro c place d ok
      cases found : scope.symbols.getVariable? name with
      | none => simp [Expr.isFixed, found] at isFixed
      | some v =>
        have both : v.isConst = true ∧ v.length = 0 := by
          simpa [Expr.isFixed, found] using isFixed
        have plain := Scope.plain_of_found defined found
        obtain ⟨notX, notY⟩ := Names.ne_of_plain plain
        have ok := readVariable_same plain found ok
        rw [both.1, both.2] at ok
        cases ok
        simp [Expr.asNumber, Source.Bytes.scalar, notX, notY, found, both]
  | .binary op l r, isFixed => by
      obtain ⟨isOp, left, right⟩ := Expr.isFixed_binary isFixed
      have first := rests_fixed defined β left
      have second := rests_fixed defined β right
      intro c place d ok
      rw [Expr.asNumber_binary isOp]
      refine arith_same isOp first second rfl rfl ?_
      cases op with
      | add | sub | and | or | xor => exact ok
      | _ => cases isOp
  | .unary op e, isFixed => by
      obtain ⟨isOp, operand⟩ := Expr.isFixed_unary isFixed
      have inner := rests_fixed defined β operand
      have literal (n : Int64) : Rests scope (Operand.int n).value fun _ => .immediate n := by
        intro c place d ok
        cases ok
        exact ⟨rfl, rfl⟩
      intro c place d ok
      rcases isOp with rfl | rfl
      · obtain ⟨same, rfl⟩ := arith_same rfl (literal 0) inner rfl rfl ok
        exact ⟨same, congrArg Place.immediate (Int64.zero_sub _)⟩
      · obtain ⟨same, rfl⟩ := arith_same rfl inner (literal (-1)) rfl rfl ok
        exact ⟨same, congrArg Place.immediate Int64.xor_neg_one⟩

namespace Spots

/-- Every operand stands somewhere. -/
theorem exists_of_isWordOperand (defined : scope.symbols.Defined)
    (operand : e.isWordOperand scope.symbols = true) : ∃ spot, Spots scope.symbols e spot := by
  rcases Bool.or_eq_true_iff.mp operand with isWord | isNarrow
  · obtain ⟨v, found⟩ := Option.isSome_iff_exists.mp isWord
    cases e with
    | var name index =>
      cases index with
      | absent => exact ⟨_, .word found⟩
      | _ => cases found
    | _ => cases found
  · rcases Bool.or_eq_true_iff.mp isNarrow with isByte | isFixed
    · cases e with
      | var name index =>
        cases index with
        | absent =>
          rcases Bool.or_eq_true_iff.mp isByte with register | cell
          · rcases Bool.or_eq_true_iff.mp register with isX | isY
            · rw [eq_of_beq isX]
              exact ⟨_, .x⟩
            · rw [eq_of_beq isY]
              exact ⟨_, .y⟩
          · cases found : scope.symbols.getVariable? name with
            | none => simp [found] at cell
            | some v =>
              have both : isByteCell v = true ∧ v.signed = false := by
                simpa [found] using cell
              exact ⟨_, .byte found both.1 both.2⟩
        | _ => cases isByte
      | _ => cases isByte
    · have value (β : Source.Bytes) : e.asNumber scope.symbols β = e.fixed scope.symbols := by
        have known := Expr.constant?_of_isFixed (Scope.registers_free defined) β isFixed
        rw [Expr.fixed, known]
        rfl
      exact ⟨_, .fixed isFixed value⟩

theorem rests (spots : Spots scope.symbols e spot) (defined : scope.symbols.Defined) :
    Rests scope (lower e).value spot := by
  cases spots with
  | word found => exact rests_word defined found
  | byte found isByte unsigned => exact rests_byte defined found isByte unsigned
  | x =>
    have rests : Rests scope (readVariable "X" .absent) _ := rests_register rfl
    exact rests
  | y =>
    have rests : Rests scope (readVariable "Y" .absent) _ := rests_register rfl
    exact rests
  | fixed isFixed value =>
    have rests := rests_fixed defined ⟨fun _ _ => 0, 0, 0⟩ isFixed
    rw [value] at rests
    exact rests

theorem isOperandIn {table : Table} (spots : Spots table e spot) (high : Bool) :
    (spot high).isOperandIn high = true := by
  cases spots with
  | word | fixed => rfl
  | byte | x | y => cases high <;> rfl

/-- A byte of a variable at which an operand stands is one of its own. -/
theorem mem_wordCells {table : Table} (spots : Spots table e spot) {high : Bool} {name : String}
    {is8Bit signed : Bool} {offset : Int64} (stands : spot high = .cell name is8Bit offset signed) :
    (name, offset) ∈ e.wordCells table ∧ offset = if high then 1 else 0 := by
  cases spots with
  | word found =>
    obtain ⟨-, named, -, -⟩ := wideVariable?_eq_some found
    cases stands
    rw [Expr.wordCells_of_wide found, named]
    cases high with
    | false => exact ⟨List.mem_cons_self, rfl⟩
    | true => exact ⟨List.mem_cons_of_mem _ List.mem_cons_self, rfl⟩
  | byte found isByte unsigned =>
    cases high with
    | true => cases stands
    | false =>
      cases stands
      have narrow := narrow_of_isByteCell found isByte
      have cells : (Expr.var name .absent).cells table = [(name, 0)] := by
        simp [Expr.cells, isCell, found, isByte]
      rw [Expr.wordCells_of_narrow narrow, cells]
      exact ⟨List.mem_cons_self, rfl⟩
  | x | y => cases high <;> cases stands
  | fixed => cases stands

section

variable (spots : Spots scope.symbols e spot)

include spots

theorem access_ne_scratch (apart : ∀ p ∈ e.wordCells scope.symbols,
      cellAddress w scope.symbols p.1 p.2 ≠ scratchAddress w) (high : Bool) :
    (spot high).access w scope.symbols ≠ .address (scratchAddress w) := by
  have operand := spots.isOperandIn high
  cases stands : spot high with
  | cell name is8Bit offset signed =>
    intro same
    exact apart _ (spots.mem_wordCells stands).1 (Access.address.inj same)
  | immediate | x | y => exact nofun
  | _ =>
    rw [stands] at operand
    cases operand

/-- What an operand stands for in the pass for high bytes depends on its second byte only. -/
theorem part_high_eq {s t : State} (same : ∀ p ∈ e.wordCells scope.symbols, p.2 = 1 →
      t.read (cellAddress w scope.symbols p.1 p.2) = s.read (cellAddress w scope.symbols p.1 p.2)) :
    (spot true).part w scope.symbols true t = (spot true).part w scope.symbols true s := by
  have operand := spots.isOperandIn true
  cases stands : spot true with
  | cell name is8Bit offset signed =>
    obtain ⟨inside, second⟩ := spots.mem_wordCells stands
    change t.read (cellAddress w scope.symbols name offset) = _
    rw [same (name, offset) inside second]
    rfl
  | immediate => rfl
  | _ =>
    rw [stands] at operand
    cases operand

section

variable (defined : scope.symbols.Defined)

include defined

theorem part_eq (high : Bool) (s : State) : (spot high).part w scope.symbols high s =
      byteOf high (e.asWord scope.symbols (bytesOf w scope.symbols s)) := by
  have register {name : String} (isRegister : isRegisterName name = true) :
      wideVariable? scope.symbols (.var name .absent) = none := by
    rw [wideVariable?, Scope.registers_free defined name isRegister]
    rfl
  cases spots with
  | word found =>
    obtain ⟨-, named, -, -⟩ := wideVariable?_eq_some found
    rw [Expr.asWord_of_wide found, named, Cpu.byteOf_wordOf]
    cases high <;> rfl
  | @byte name v found isByte unsigned =>
    obtain ⟨notX, notY⟩ := Names.ne_of_plain (Scope.plain_of_found defined found)
    have number : (Expr.var name .absent).asNumber scope.symbols (bytesOf w scope.symbols s) =
        Source.extended false (s.read (cellAddress w scope.symbols name 0)) := by
      simp [Expr.asNumber, Source.Bytes.scalar, notX, notY, found, isConst_of_isByteCell isByte,
        unsigned, bytesOf]
    rw [Expr.asWord_of_narrow (narrow_of_isByteCell found isByte), number,
      Source.byteOf_lowWord_extended]
    cases high <;> rfl
  | x =>
    have number : (Expr.var "X" .absent).asNumber scope.symbols (bytesOf w scope.symbols s) =
        Source.extended false s.x := rfl
    rw [Expr.asWord_of_narrow (register rfl), number, Source.byteOf_lowWord_extended]
    cases high <;> rfl
  | y =>
    have number : (Expr.var "Y" .absent).asNumber scope.symbols (bytesOf w scope.symbols s) =
        Source.extended false s.y := rfl
    rw [Expr.asWord_of_narrow (register rfl), number, Source.byteOf_lowWord_extended]
    cases high <;> rfl
  | fixed isFixed value =>
    rw [Expr.asWord_of_narrow (wideVariable?_eq_none_of_isFixed isFixed), value,
      Source.byteOf_lowWord]
    cases high <;> rfl

/-- A word stands in no constant. -/
theorem ne_immediate (isWord : e.isWord scope.symbols = true) (high : Bool) (n : Int64) :
    spot high ≠ .immediate n := by
  have register {name : String} (isRegister : isRegisterName name = true)
      (isWord : (Expr.var name .absent).isWord scope.symbols = true) : False := by
    rw [Expr.isWord, wideVariable?, Scope.registers_free defined name isRegister] at isWord
    cases isWord
  cases spots with
  | word => exact nofun
  | byte found isByte =>
    rw [Expr.isWord, narrow_of_isByteCell found isByte] at isWord
    cases isWord
  | x | y => exact (register rfl isWord).elim
  | fixed isFixed =>
    rw [Expr.isWord, wideVariable?_eq_none_of_isFixed isFixed] at isWord
    cases isWord

/-- An operand that is known in advance stands for its value. -/
theorem asWord_of_constant {n : Int64} (known : constant? scope.symbols e = some n)
    (β : Source.Bytes) : e.asWord scope.symbols β = Source.lowWord n := by
  have varies {name : String} (none : ∀ v, scope.symbols.getVariable? name = some v →
      v.isConst = false) : constant? scope.symbols (.var name .absent) = Option.none := by
    change constantVariable? scope.symbols name = Option.none
    unfold constantVariable?
    split
    · next v found => rw [none v found, Bool.false_and, if_neg Bool.false_ne_true]
    · rfl
  have register {name : String} (isRegister : isRegisterName name = true) :
      constant? scope.symbols (.var name .absent) = Option.none := by
    refine varies fun v found => ?_
    rw [Scope.registers_free defined name isRegister] at found
    cases found
  cases spots with
  | word wide =>
    obtain ⟨found, -, -, isVar⟩ := wideVariable?_eq_some wide
    rw [varies fun v same => by cases found.symm.trans same; exact isVar] at known
    cases known
  | byte found isByte =>
    rw [varies fun v same => by cases found.symm.trans same; exact isConst_of_isByteCell isByte]
      at known
    cases known
  | x | y =>
    rw [register rfl] at known
    cases known
  | fixed isFixed value =>
    have same := Expr.constant?_of_isFixed (Scope.registers_free defined) β isFixed
    rw [Expr.asWord_of_narrow (wideVariable?_eq_none_of_isFixed isFixed),
      Option.some.inj (same.symm.trans known)]

end

end

end Spots

end Backend6502.Lowering
