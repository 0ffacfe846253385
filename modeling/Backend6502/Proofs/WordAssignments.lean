import Backend6502.Proofs.ByteAssignments
import Backend6502.Proofs.WordPasses
import Backend6502.Proofs.WordSteps

/-!
# Assignments of words

A word is written in two passes over the same operands. Between them the low byte is stored, which
leaves the carry as it is; so what the pass for high bytes finds is the carry of the low bytes and,
since all bytes lie apart, the operands as they were.
-/

namespace Backend6502.Lowering

open Code (Surroundings)
open Cpu (State Access Mnemonic byteOf)
open Source (Op Expr)
open Symbols (Table Variable)

variable {w : Surroundings} {scope : Scope} {c d : Context} {name : String} {v : Variable}
  {table : Table} {s : State} {op : Op} {lhs rhs : Operand} {x y : Expr}
  {spotX spotY : Bool → Place}

section Passes

variable {place value : Place} {b : State → UInt8} {m : Gen Place} {k : State → Bool}

/-- The code writes the byte of a pass and leaves a carry. -/
def Writes (w : Surroundings) (table : Table) (name : String) (high : Bool) (b : State → UInt8)
    (k : State → Bool) (g : State → State) : Prop :=
  ∀ s : State, s.decimal = false → ∃ t, Untouched w s t ∧
    (t.write (cellAddress w table name (if high then 1 else 0)) (b s)).Alike (g s) ∧
      (g s).carry = k s

theorem target_same (defined : scope.symbols.Defined)
    (wide : wideVariable? scope.symbols (.var name .absent) = some v)
    (ok : target (.var name .absent) scope c = .ok place d) :
    d = c ∧ place = .cell name false (if c.high then 1 else 0) v.signed := by
  obtain ⟨_, _, checks, ok⟩ := bind_inv ok
  cases checkWritable_same checks
  obtain ⟨isWide, _, ⟨⟩, ok⟩ := bind_inv ok
  rw [wide] at ok
  exact rests_word defined wide _ _ _ ok

/-- The state after a byte has been written to a place that may be an element. -/
def Place.fill (w : Surroundings) (table : Table) (place : Place) (b : UInt8) (s : State) : State :=
  match place with
  | .x => { s with x := b }
  | .y => { s with y := b }
  | place => s.store (place.reach w table s) b

theorem Place.fill_alike {b : UInt8} {t : State} (alike : s.Alike t) :
    (place.fill w table b s).Alike (place.fill w table b t) := by
  have stored : (s.store (place.reach w table s) b).Alike (t.store (place.reach w table t) b) := by
    rw [reach_alike alike]
    exact alike.store _ b
  cases place with
  | x => exact ⟨rfl, alike.y, alike.sp, alike.decimal, alike.memory⟩
  | y => exact ⟨alike.x, rfl, alike.sp, alike.decimal, alike.memory⟩
  | _ => exact stored

/-- A byte goes to memory, through the accumulator if it is in no register. -/
theorem emits_storeMemoryPass (reached : place.isReached scope.symbols = true)
    (direct : value.isDirect = true) (given : value.isNothing = false)
    (free : value.isAccumulator = false → c.accInUse = false) :
    Emits w scope c (storeMemory place value) fun _ d g =>
      Passed c d ∧ ∀ s : State,
        (s.store ((place.inPass c.high).reach w scope.symbols s)
          (value.part w scope.symbols c.high s)).Alike (g s) ∧ (g s).carry = s.carry := by
  have stores (c : Context) (signed : Bool) := @Emits.storePass w scope c place .sta
    (.accumulator signed) rfl reached fun _ => rfl
  cases value with
  | accumulator signed =>
    exact .passing (stores c signed) fun s => ⟨.refl _, State.carry_store ..⟩
  | immediate | scratch | cell =>
    refine .keepingA (free rfl) (.bind (.emitPass rfl rfl) ?_)
    rintro _ d g ⟨⟨code, rfl⟩, loads⟩
    refine (stores _ false).mono ?_
    rintro _ e h ⟨⟨others, rfl⟩, stores⟩
    refine ⟨.of_coded _ _ _, fun s => ?_⟩
    have reaches : (place.inPass c.high).reach w scope.symbols (g s) =
        (place.inPass c.high).reach w scope.symbols s := by
      rw [loads]
      cases place <;> rfl
    have alike : s.Alike (g s) := by
      rw [loads]
      exact ⟨rfl, rfl, rfl, rfl, rfl⟩
    rw [Function.comp_apply, stores, State.carry_store, reaches]
    refine ⟨?_, by rw [loads]; rfl⟩
    have stored := alike.store ((place.inPass c.high).reach w scope.symbols s) (g s).a
    rw [loads] at stored ⊢
    exact stored
  | nothing => cases given
  | _ => cases direct

theorem emits_storePlace (writable : place.isReadable scope.symbols = true)
    (direct : value.isDirect = true) (given : value.isNothing = false)
    (free : value.isAccumulator = false → c.accInUse = false) :
    Emits w scope c (store place value) fun _ d g => Passed c d ∧ ∀ s : State,
      (place.fill w scope.symbols (value.part w scope.symbols c.high s) s).Alike (g s) ∧
        (g s).carry = s.carry := by
  have loads {m : Mnemonic} (straight : m.isStraight = true)
      (sets : ∀ (s : State) (access : Access), (place.fill w scope.symbols (s.load access) s).Alike
        (s.execute m access) ∧ (s.execute m access).carry = s.carry) :
      Emits w scope c (emit m value) fun _ d g => Passed c d ∧ ∀ s : State,
        (place.fill w scope.symbols (value.part w scope.symbols c.high s) s).Alike (g s) ∧
          (g s).carry = s.carry := by
    refine .passing (.emitPass straight direct) fun s => ?_
    rw [Place.part, ← Place.load_access ((value.isDirect_inPass c.high).trans direct)]
    exact sets s _
  cases place with
  | x | y =>
    cases value with
    | accumulator signed =>
      exact .passing (.emitImplied rfl) fun s => ⟨⟨rfl, rfl, rfl, rfl, rfl⟩, rfl⟩
    | immediate | scratch | cell =>
      first
      | exact loads (m := .ldx) rfl fun _ _ => ⟨⟨rfl, rfl, rfl, rfl, rfl⟩, rfl⟩
      | exact loads (m := .ldy) rfl fun _ _ => ⟨⟨rfl, rfl, rfl, rfl, rfl⟩, rfl⟩
    | nothing => cases given
    | _ => cases direct
  | cell | indexedX | indexedY => exact emits_storeMemoryPass writable direct given free
  | _ => exact .fail

theorem emits_storeInto {lhs : Expr} {R : Place → (State → State) → Prop}
    (plain : needsY scope.symbols lhs = false)
    (rests : ∀ d p e, d.high = c.high → target lhs scope d = .ok p e → e = d ∧ p = place)
    (writable : place.isReadable scope.symbols = true) (free : c.accInUse = false)
    (values : Emits w scope c m fun v d g => v.isDirect = true ∧ Passed c d ∧ R v g) :
    Emits w scope c (storeValue lhs m) fun _ d g => Passed c d ∧ ∃ v h, R v h ∧ ∀ s : State,
      (place.fill w scope.symbols (v.part w scope.symbols c.high (h s)) (h s)).Alike (g s) ∧
        (g s).carry = (h s).carry := by
  have shelters (d : Context) (v v' : Place) (e : Context)
      (ok : shelter lhs v scope d = .ok v' e) : e = d ∧ v' = v := by
    unfold shelter at ok
    cases v with
    | x | y | indexedY =>
      obtain ⟨table, _, ⟨⟩, ok⟩ := bind_inv ok
      rw [plain, if_neg Bool.false_ne_true] at ok
      cases ok
      exact ⟨rfl, rfl⟩
    | _ =>
      cases ok
      exact ⟨rfl, rfl⟩
  refine .accInUse (.bind values ?_)
  rintro v d g ⟨direct, passed, holds⟩
  have finish (given : v.isNothing = false) (inUse : Bool) (needed : inUse = v.isAccumulator) :
      Emits w scope { d with accInUse := inUse }
        (do let place ← target lhs
            store place v
            setAccInUse c.accInUse
            return place) fun _ e k => Passed c e ∧ ∃ v h, R v h ∧ ∀ s : State,
      (place.fill w scope.symbols (v.part w scope.symbols c.high (h s)) (h s)).Alike (k (g s)) ∧
        (k (g s)).carry = (h s).carry := by
    refine .reading (fun p e => rests _ p e passed.high) fun p same => ?_
    cases same
    refine .bind (emits_storePlace writable direct given fun notAcc => needed.trans notAcc) ?_
    rintro _ e k ⟨passed', stores⟩
    refine .modify rfl (.pure ⟨?_, v, g, holds, fun s => ?_⟩)
    · exact ⟨passed'.high.trans passed.high, rfl, passed'.deferred.trans passed.deferred⟩
    · have stored := stores (g s)
      rw [passed.high] at stored
      exact stored
  split
  · exact .fail
  · exact .fail
  · next given _ =>
    have given : v.isNothing = false := by cases v <;> first | rfl | exact absurd rfl given
    refine .reading (fun v' e => shelters d v v' e) fun v' same => ?_
    cases same
    refine .ite (fun inside => .modify rfl (finish given true inside.symm)) fun outside => ?_
    have unchanged : { d with accInUse := false } = d := by
      rw [← free, ← passed.acc]
    have finishes := finish given false (eq_false_of_ne_true outside).symm
    rw [unchanged] at finishes
    exact finishes

theorem Valued.isDirect {g : State → State} (valued : Valued w scope.symbols b k c place d g) :
    place.isDirect = true := by
  rcases valued.stands with isAcc | ⟨n, rfl⟩
  · cases place <;> first | rfl | cases isAcc
  · rfl

theorem emits_storePass (defined : scope.symbols.Defined)
    (wide : wideVariable? scope.symbols (.var name .absent) = some v) (free : c.accInUse = false)
    (valued : Emits w scope c m (Valued w scope.symbols b k c)) :
    Emits w scope c (storeValue (.var name .absent) m) fun _ d g =>
      Passed c d ∧ Writes w scope.symbols name c.high b k g := by
  have target (d : Context) (p : Place) (e : Context) (same : d.high = c.high)
      (ok : target (.var name .absent) scope d = .ok p e) :
      e = d ∧ p = .cell name false (if c.high then 1 else 0) v.signed := by
    rw [← same]
    exact target_same defined wide ok
  have values := valued.mono fun v d g valued =>
    (⟨valued.isDirect, valued.passed, valued.run⟩ : _ ∧ Passed c d ∧ _)
  refine (emits_storeInto rfl target rfl free values).mono ?_
  rintro _ d g ⟨passed, v, h, run, stores⟩
  refine ⟨passed, fun s binary => ?_⟩
  obtain ⟨untouched, value, carry⟩ := run s binary
  obtain ⟨alike, carry'⟩ := stores s
  rw [value] at alike
  exact ⟨h s, untouched, alike, carry'.trans carry⟩

theorem emits_assignWide {b : Bool → State → UInt8}
    {k : Bool → State → Bool}
    (order : ∀ c up d, movesUp op rhs.expr scope c = .ok up d → d = c ∧ up = false)
    (pass : ∀ c, c.accInUse = false → Emits w scope c (assignByte op lhs rhs) fun _ d g =>
      Passed c d ∧ Writes w scope.symbols name c.high (b c.high) (k c.high) g)
    (free : c.accInUse = false) :
    Emits w scope c (assignWide op lhs rhs) fun _ d g => d.high = false ∧
      d.deferred = c.deferred ∧ ∃ first second, g = second ∘ first ∧
        Writes w scope.symbols name false (b false) (k false) first ∧
          Writes w scope.symbols name true (b true) (k true) second := by
  refine .reading (order c) fun highFirst lowFirst => .accInUse ?_
  rw [lowFirst, if_neg Bool.false_ne_true, free]
  refine .bind (.modify rfl (.modify rfl (pass _ rfl))) fun _ d g ⟨passed, writes⟩ => ?_
  refine .bind (.modify rfl (.modify rfl (pass _ rfl))) fun _ e h ⟨passed', writes'⟩ => ?_
  exact .modify rfl
    (.pure ⟨rfl, passed'.deferred.trans passed.deferred, g, h, rfl, writes, writes'⟩)

theorem Writes.wordAssigned {bl bh : State → UInt8} {kl kh : State → Bool}
    {first second : State → State} {word : UInt16} (low : Writes w table name false bl kl first)
    (high : Writes w table name true bh kh second)
    (distinct : cellAddress w table name 0 ≠ cellAddress w table name 1)
    (apart : cellAddress w table name 0 ≠ scratchAddress w) (binary : s.decimal = false)
    (isLow : bl s = byteOf false word) (isHigh : ∀ t : State, t.carry = kl s →
      (∀ address, address ≠ cellAddress w table name 0 → address ≠ scratchAddress w →
        t.read address = s.read address) → bh t = byteOf true word) :
    WordAssigned w table name word s (second (first s)) := by
  obtain ⟨t, untouched, written, carry⟩ := low s binary
  have lowered (address : UInt16) : (first s).read address =
      if cellAddress w table name 0 = address then bl s else t.read address :=
    (written.read address).trans (State.read_write t _ _ _)
  have others (address : UInt16) (notLow : address ≠ cellAddress w table name 0)
      (notScratch : address ≠ scratchAddress w) : (first s).read address = s.read address := by
    rw [lowered, if_neg notLow.symm, untouched.memory address notScratch]
  have decimal : (first s).decimal = s.decimal := written.decimal.trans untouched.decimal
  obtain ⟨u, untouched', written', -⟩ := high (first s) (decimal.trans binary)
  have raised (address : UInt16) : (second (first s)).read address =
      if cellAddress w table name 1 = address then bh (first s) else u.read address :=
    (written'.read address).trans (State.read_write u _ _ _)
  refine ⟨?_, ?_, ?_, ?_, ?_, ?_, fun address notLow notHigh notScratch => ?_⟩
  · rw [raised, if_neg distinct.symm, untouched'.memory _ apart, lowered, if_pos rfl, isLow]
  · rw [raised, if_pos rfl, isHigh (first s) carry others]
  · exact written'.x.trans (untouched'.x.trans (written.x.trans untouched.x))
  · exact written'.y.trans (untouched'.y.trans (written.y.trans untouched.y))
  · exact written'.sp.trans (untouched'.sp.trans (written.sp.trans untouched.sp))
  · exact written'.decimal.trans (untouched'.decimal.trans decimal)
  · rw [raised, if_neg notHigh.symm, untouched'.memory address notScratch,
      others address notLow notScratch]

theorem emits_wordPass
    (defined : scope.symbols.Defined)
    (wide : wideVariable? scope.symbols (.var name .absent) = some v) (isOp : op.isByteOp = true)
    (first : Spots scope.symbols x spotX) (second : Spots scope.symbols y spotY)
    (apart : ∀ p ∈ x.wordCells scope.symbols,
      cellAddress w scope.symbols p.1 p.2 ≠ scratchAddress w)
    (free : c.accInUse = false) :
    Emits w scope c
      (storeValue (.var name .absent) (arith op (lower x).toOperand (lower y).toOperand))
      fun _ d g => Passed c d ∧ Writes w scope.symbols name c.high
        (fun s => (outcome w scope.symbols op c.high (spotX c.high) (spotY c.high) s).1)
        (fun s => (outcome w scope.symbols op c.high (spotX c.high) (spotY c.high) s).2) g :=
  emits_storePass defined wide free (emits_arithPass isOp free (first.rests defined)
    (second.rests defined) (first.isOperandIn _) (second.isOperandIn _)
    (first.access_ne_scratch apart _))

end Passes

section Forms

variable {o : Op}

/-- A compound assignment is done in place only if it adds or subtracts one. -/
theorem assignInPlace_none {lhs rhs : Expr} {place : Option Place}
    (isOp : op.isByteOp = true)
    (steady : op = .add ∨ op = .sub → constant? scope.symbols rhs ≠ some 1)
    (ok : assignInPlace op lhs rhs scope c = .ok place d) : d = c ∧ place = none := by
  obtain ⟨known, _, ⟨⟩, ok⟩ := bind_inv ok
  obtain ⟨high, _, ⟨⟩, ok⟩ := bind_inv ok
  cases known : constant? scope.symbols rhs with
  | none =>
    rw [known] at ok
    cases ok
    exact ⟨rfl, rfl⟩
  | some amount =>
    cases high : c.high with
    | true =>
      rw [known, high] at ok
      cases ok
      exact ⟨rfl, rfl⟩
    | false =>
      rw [known, high] at ok
      dsimp only at ok
      cases op with
      | add | sub =>
        have other : amount ≠ 1 := by
          rintro rfl
          exact steady (by simp) known
        rw [if_neg other] at ok
        cases ok
        exact ⟨rfl, rfl⟩
      | and | or | xor =>
        cases ok
        exact ⟨rfl, rfl⟩
      | _ => cases isOp

theorem emits_compoundByte {Q : Report Place}
    (base : o.compound? = some op) (isOp : op.isByteOp = true)
    (steady : op = .add ∨ op = .sub → constant? scope.symbols rhs.expr ≠ some 1)
    (rest : Emits w scope c (storeValue lhs.expr (arith op lhs rhs)) Q) :
    Emits w scope c (assignByte o lhs rhs) Q := by
  have combines : arithOrShift op lhs rhs = arith op lhs rhs := by
    cases op <;> first | rfl | cases isOp
  unfold assignByte
  rw [base]
  refine .accInUse (.reading (fun _ _ => assignInPlace_none isOp steady) fun place none => ?_)
  rw [none]
  dsimp only
  rw [combines]
  exact rest

theorem movesUp_same {rhs : Expr} {up : Bool} (isOp : op.isByteOp = true)
    (form : o.compound? = some op ∨ o = .assign ∧ ∃ l r, rhs = .binary op l r)
    (ok : movesUp o rhs scope c = .ok up d) : d = c ∧ up = false := by
  rcases form with base | ⟨rfl, l, r, rfl⟩
  · cases o with
    | addAssign | subAssign | andAssign | orAssign | xorAssign =>
      cases ok
      exact ⟨rfl, rfl⟩
    | shlAssign | shrAssign | mulAssign | divAssign =>
      cases base
      cases isOp
    | _ => cases base
  · cases op with
    | add | sub | and | or | xor =>
      cases ok
      exact ⟨rfl, rfl⟩
    | _ => cases isOp

end Forms

/-- Bytes of variables that lie apart from each other and from the scratch cell. -/
structure Separate (w : Surroundings) (table : Table) (cells : List (String × Int64)) : Prop where
  scratch : ∀ p ∈ cells, cellAddress w table p.1 p.2 ≠ scratchAddress w
  distinct : ∀ p ∈ cells, ∀ q ∈ cells,
    cellAddress w table p.1 p.2 = cellAddress w table q.1 q.2 → p = q

/-- The bytes of the variable that is assigned and of the operands. -/
def updateCells (table : Table) (name : String) (x y : Expr) : List (String × Int64) :=
  [(name, 0), (name, 1)] ++ x.wordCells table ++ y.wordCells table

section Updating

namespace Separate

variable (separate : Separate w scope.symbols (updateCells scope.symbols name x y))

include separate

theorem own : cellAddress w scope.symbols name 0 ≠ cellAddress w scope.symbols name 1 ∧
    cellAddress w scope.symbols name 0 ≠ scratchAddress w := by
  have low : (name, 0) ∈ updateCells scope.symbols name x y := by simp [updateCells]
  have high : (name, 1) ∈ updateCells scope.symbols name x y := by simp [updateCells]
  refine ⟨fun same => ?_, separate.scratch _ low⟩
  cases separate.distinct _ low _ high same

theorem left : ∀ p ∈ x.wordCells scope.symbols,
    cellAddress w scope.symbols p.1 p.2 ≠ scratchAddress w :=
  fun p inside => separate.scratch p (by simp [updateCells, inside])

/-- A write of the low byte leaves all second bytes as they are. -/
theorem second_read {s t : State}
    (others : ∀ address, address ≠ cellAddress w scope.symbols name 0 →
      address ≠ scratchAddress w → t.read address = s.read address) {p : String × Int64}
    (inside : p ∈ x.wordCells scope.symbols ++ y.wordCells scope.symbols) (isSecond : p.2 = 1) :
    t.read (cellAddress w scope.symbols p.1 p.2) =
      s.read (cellAddress w scope.symbols p.1 p.2) := by
  have low : (name, 0) ∈ updateCells scope.symbols name x y := by simp [updateCells]
  have named : p ∈ updateCells scope.symbols name x y := by
    rw [updateCells, List.append_assoc]
    exact List.mem_append_right _ inside
  refine others _ (fun same => ?_) (separate.scratch p named)
  cases separate.distinct p named _ low same
  cases isSecond

end Separate

/-- The pass for low bytes leaves the low byte of the outcome, whatever stands in advance. -/
theorem outcome_low {l r : Place} {a b : UInt16}
    (isOp : op.isByteOp = true) (left : l.part w table false s = byteOf false a)
    (right : r.part w table false s = byteOf false b) :
    (outcome w table op false l r s).1 = byteOf false (op.onWords a b) := by
  unfold outcome
  split
  · next m n =>
    rw [Place.part_immediate, Source.lowWord_onNumbers isOp, Op.byteOf_onWords_low isOp s.carry,
      Op.byteOf_onWords_low isOp s.carry, ← left, ← right, Place.part_immediate,
      Place.part_immediate]
  · rw [combined, left, right, Op.byteOf_onWords_low isOp s.carry]
    rfl

/-- What the passes over two operands leave are the bytes of a word. -/
structure Halves (w : Surroundings) (table : Table) (name : String) (op : Op)
    (spotX spotY : Bool → Place) (word : State → UInt16) : Prop where
  low (s : State) :
    (outcome w table op false (spotX false) (spotY false) s).1 = byteOf false (word s)
  high (s t : State) (carry : t.carry = (outcome w table op false (spotX false) (spotY false) s).2)
    (others : ∀ address, address ≠ cellAddress w table name 0 → address ≠ scratchAddress w →
      t.read address = s.read address) :
    (outcome w table op true (spotX true) (spotY true) t).1 = byteOf true (word s)

/-- Unless both operands are constant in a pass, the word is the outcome on the words of both. -/
theorem Halves.of_varies (defined : scope.symbols.Defined) (isOp : op.isByteOp = true)
    (spotsX : Spots scope.symbols x spotX) (spotsY : Spots scope.symbols y spotY)
    (varies : ∀ high a b, ¬(spotX high = .immediate a ∧ spotY high = .immediate b))
    (separate : Separate w scope.symbols (updateCells scope.symbols name x y)) :
    Halves w scope.symbols name op spotX spotY fun s =>
      op.onWords (x.asWord scope.symbols (bytesOf w scope.symbols s))
        (y.asWord scope.symbols (bytesOf w scope.symbols s)) where
  low s := outcome_low isOp (spotsX.part_eq defined false s) (spotsY.part_eq defined false s)
  high s t carry others := by
    have left := spotsX.part_high_eq fun p inside =>
      separate.second_read others (List.mem_append_left _ inside)
    have right := spotsY.part_high_eq fun p inside =>
      separate.second_read others (List.mem_append_right _ inside)
    rw [outcome_of_varies (varies false), combined, spotsX.part_eq defined,
      spotsY.part_eq defined] at carry
    rw [outcome_of_varies (varies true), combined, left, right, spotsX.part_eq defined,
      spotsY.part_eq defined, Op.byteOf_onWords_high isOp s.carry]
    change (op.withCarry t.carry _ _).1 = _
    rw [carry]
    rfl

end Updating

end Backend6502.Lowering
