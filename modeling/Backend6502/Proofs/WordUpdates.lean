import Backend6502.Proofs.ByteAssignments
import Backend6502.Proofs.WordAssignments

/-!
# Statements that update a word

A variable of 16 bits is updated by an assignment, by a compound assignment, or by an increment or
decrement. Whatever the form, the code leaves the outcome of the operation on both words in the
variable, and changes nothing else that lasts.

Where both operands are bytes, index registers or constants, their high bytes are combined in
advance, and what the low bytes carry is not asked for. The word that is stored has the right low
byte; its high byte is that of the constants alone, and is right exactly if these carry as the
operands do.
-/

namespace Backend6502.Lowering

open Code (Surroundings Steps)
open Cpu (Memory State)
open Source (Op Expr Loc)
open Symbols (Table Variable)

section Updating

variable {w : Surroundings} {scope : Scope} {c : Context} {name : String} {v : Variable} {op : Op}
  {x y : Expr} {spotX spotY : Bool → Place}
variable {o : Op} {lhs rhs : Operand} {place : Place} {d : Context} {P : State → State → Prop}
  {u : Unit} {loc : Loc} {word : State → UInt16} {increments : Bool}

theorem assign_wide (var : lhs.expr = .var name .absent)
    (wide : wideVariable? scope.symbols (.var name .absent) = some v) (low : c.high = false)
    (ok : assign o lhs rhs scope c = .ok place d) :
    ((o.compound? = some .add ∨ o.compound? = some .sub) ∧
      constant? scope.symbols rhs.expr = some 1 ∧
        ∃ u, stepWide v (o = .addAssign) scope c = .ok u d) ∨
    (¬((o.compound? = some .add ∨ o.compound? = some .sub) ∧
      constant? scope.symbols rhs.expr = some 1) ∧ assignWide o lhs rhs scope c = .ok place d) := by
  obtain ⟨table, _, ⟨⟩, ok⟩ := bind_inv ok
  obtain ⟨stepping, _, read, ok⟩ := bind_inv ok
  obtain ⟨same, steps⟩ := isStepping_same read
  cases same
  obtain ⟨high, _, ⟨⟩, ok⟩ := bind_inv ok
  rw [low, var, wide] at ok
  dsimp only at ok
  cases stepping with
  | true =>
    obtain ⟨u, _, steps', ok⟩ := bind_inv ok
    cases ok
    obtain ⟨adds, one⟩ := steps.mp rfl
    exact .inl ⟨adds, one, u, steps'⟩
  | false =>
    exact .inr ⟨fun one => Bool.false_ne_true (steps.mpr one), ok⟩

theorem Brings.of_emits {α : Type} {m : Gen α} {a : α} {Q : Report α}
    (emits : Emits w scope c m Q) (ok : m scope c = .ok a d)
    (does : ∀ g, Q a d g → ∀ s, s.decimal = false → P s (g s)) : Brings w c d P := by
  obtain ⟨code, added, straight, holds⟩ := emits a d ok
  exact ⟨_, added, fun before s binary => ⟨_, .toEnd straight s, does _ holds s binary⟩⟩

/-- A statement that is an expression starts with its label and ends with the expression's code. -/
theorem stmt_brings {e : Expr} (low : c.high = false) (free : c.accInUse = false)
    (none : c.deferred = [])
    (brings : ∀ begun, begun.high = false → begun.accInUse = false → begun.deferred = [] →
      exprStmt e scope begun = .ok u d → Brings w begun d P)
    (ok : stmt (.expr loc e) scope c = .ok u d) :
    ∃ code, d.code = c.code ++ code ∧ ∀ s, s.decimal = false →
      ∃ t, Steps w code ⟨code, s⟩ ⟨[], t⟩ ∧ P s t := by
  obtain ⟨_, begun, enters, ok⟩ := bind_inv ok
  obtain ⟨flags, same⟩ := enter_eq_ok enters
  obtain ⟨code, added, runs⟩ := brings begun (by rw [same]; exact low) (by rw [same]; exact free)
    (by rw [same]; exact none) ok
  refine ⟨labelLines loc ++ code, by rw [added, same, List.append_assoc], fun s binary => ?_⟩
  obtain ⟨t, steps, holds⟩ := runs (labelLines loc) s binary
  exact ⟨t, (steps_labelLines loc w _ code s).trans steps, holds⟩

theorem Brings.of_code {e : Context} (brings : Brings w c d P) (code : e.code = d.code) :
    Brings w c e P := by
  obtain ⟨added, same, runs⟩ := brings
  exact ⟨added, code.trans same, runs⟩

theorem Brings.mono {Q : State → State → Prop} (brings : Brings w c d P)
    (implies : ∀ s t, P s t → Q s t) : Brings w c d Q := by
  obtain ⟨added, same, runs⟩ := brings
  refine ⟨added, same, fun before s binary => ?_⟩
  obtain ⟨t, steps, holds⟩ := runs before s binary
  exact ⟨t, steps, implies s t holds⟩

theorem exprStmt_assign {lhs rhs : Expr} (assigns : o.isAssign = true)
    (ok : exprStmt (.binary o lhs rhs) scope c = .ok u d) :
    ∃ place between, assign o (lower lhs).toOperand (lower rhs).toOperand scope c =
      .ok place between ∧ endStatement scope between = .ok u d := by
  have value : (lower (.binary o lhs rhs)).value =
      assign o (lower lhs).toOperand (lower rhs).toOperand := by
    cases o <;> first | rfl | cases assigns
  have ok : ((lower (.binary o lhs rhs)).value >>= fun _ => endStatement) scope c = .ok u d := ok
  rw [value] at ok
  exact bind_inv ok

theorem stmt_assigns_straight {lhs rhs : Expr} (assigns : o.isAssign = true)
    (emits : ∀ begun, begun.high = false → begun.accInUse = false →
      Emits w scope begun (assign o (lower lhs).toOperand (lower rhs).toOperand)
        fun _ d g => d.high = false ∧ d.deferred = begun.deferred ∧ ∀ s, P s (g s))
    (low : c.high = false) (free : c.accInUse = false) (none : c.deferred = []) :
    Ensures (stmt (.expr loc (.binary o lhs rhs))) scope c fun _ d =>
      ∃ code, d.code = c.code ++ code ∧ ∀ s, ∃ t, Steps w code ⟨code, s⟩ ⟨[], t⟩ ∧ P s t := by
  refine ensures_stmt fun _ d ok => ?_
  obtain ⟨_, begun, enters, ok⟩ := bind_inv ok
  obtain ⟨flags, same⟩ := enter_eq_ok enters
  obtain ⟨place, between, assigned, ends⟩ := exprStmt_assign assigns ok
  obtain ⟨code, added, straight, lowHere, deferred, does⟩ :=
    emits begun (by rw [same]; exact low) (by rw [same]; exact free) place between assigned
  rw [same] at added deferred
  have finished := endStatement_code lowHere (deferred.trans none) ends
  refine ⟨labelLines loc ++ code.map .instruction, ?_, fun s => ⟨_, ?_, does s⟩⟩
  · rw [finished, added, List.append_assoc]
  · exact (steps_labelLines loc w _ _ s).trans (.toEnd straight s)

/-- What an expression does to a word: it assigns the outcome of an operation. -/
inductive Updates (name : String) (op : Op) (x y : Expr) : Expr → Prop where
  | assign : Updates name op x y (.binary .assign (.var name .absent) (.binary op x y))
  | compound {o : Op} (base : o.compound? = some op) (own : x = .var name .absent) :
      Updates name op x y (.binary o (.var name .absent) y)
  | step {o : Op} (own : x = .var name .absent) (one : y = .int 1)
      (direction : op = if o.increments then .add else .sub) :
      Updates name op x y (.incDec o (.var name .absent))

section

variable (defined : scope.symbols.Defined)
  (wide : wideVariable? scope.symbols (.var name .absent) = some v) (isOp : op.isByteOp = true)
  (spotsX : Spots scope.symbols x spotX) (spotsY : Spots scope.symbols y spotY)
  (halves : Halves w scope.symbols name op spotX spotY word)
  (separate : Separate w scope.symbols (updateCells scope.symbols name x y))
  (free : c.accInUse = false)

include defined wide isOp spotsX spotsY halves separate free

/-- The two passes of an assignment whose value is computed from two operands. -/
theorem brings_assignWide
    (order : ∀ c up d, movesUp o rhs.expr scope c = .ok up d → d = c ∧ up = false)
    (form : ∀ c Q, Emits w scope c
        (storeValue (.var name .absent) (arith op (lower x).toOperand (lower y).toOperand)) Q →
      Emits w scope c (assignByte o lhs rhs) Q)
    (ok : assignWide o lhs rhs scope c = .ok place d) : d.high = false ∧ d.deferred = c.deferred ∧
      Brings w c d fun s => WordAssigned w scope.symbols name (word s) s := by
  let pass (high : Bool) (s : State) : UInt8 × Bool :=
    outcome w scope.symbols op high (spotX high) (spotY high) s
  have emits := emits_assignWide (w := w) (b := fun high s => (pass high s).1)
    (k := fun high s => (pass high s).2) order (fun c free => form c _ (emits_wordPass defined
      wide isOp spotsX spotsY separate.left free)) free
  obtain ⟨_, _, _, low, none, -⟩ := emits place d ok
  refine ⟨low, none, .of_emits emits ok ?_⟩
  rintro _ ⟨-, -, first, second, rfl, writes, writes'⟩ s binary
  obtain ⟨distinct, apart⟩ := separate.own
  exact writes.wordAssigned writes' distinct apart binary (halves.low s) (halves.high s)

/-- An assignment of the outcome of an operation. -/
theorem exprStmt_assigns (low : c.high = false) (none : c.deferred = [])
    (ok : exprStmt (.binary .assign (.var name .absent) (.binary op x y)) scope c = .ok u d) :
    Brings w c d fun s => WordAssigned w scope.symbols name (word s) s := by
  obtain ⟨place, between, assigns, ends⟩ := exprStmt_assign rfl ok
  rcases assign_wide rfl wide low assigns with ⟨never, -⟩ | ⟨-, passes⟩
  · simp [Op.compound?] at never
  · have value : (lower (.binary op x y)).value =
        arith op (lower x).toOperand (lower y).toOperand := by
      cases op <;> first | rfl | cases isOp
    obtain ⟨lowNow, deferred, brings⟩ := brings_assignWide defined wide isOp spotsX spotsY halves
      separate free (fun _ _ _ => movesUp_same isOp (.inr ⟨rfl, _, _, expr_lower _⟩))
      (fun c Q emits => by
        change Emits w scope c (storeValue (.var name .absent) (lower (.binary op x y)).value) Q
        rw [value]
        exact emits) passes
    exact brings.of_code (endStatement_code lowNow (deferred.trans none) ends)

end

section

variable (wide : wideVariable? scope.symbols (.var name .absent) = some v)

include wide

theorem asWord_var (s : State) :
    (Expr.var name .absent).asWord scope.symbols (bytesOf w scope.symbols s) =
      wordAt w scope.symbols name s := by
  obtain ⟨-, named, -, -⟩ := wideVariable?_eq_some wide
  rw [Expr.asWord_of_wide wide, named]
  rfl

theorem endStatement_step (deferred : c.deferred = [⟨.var name .absent, increments⟩])
    (ok : endStatement scope c = .ok u d) :
    ∃ u' e, stepWide v increments scope { c with deferred := [], high := false } = .ok u' e ∧
      d.code = e.code := by
  obtain ⟨_, flushed, flush, ok⟩ := bind_inv ok
  obtain ⟨_, _, ⟨⟩, flush⟩ := bind_inv flush
  rw [deferred] at flush
  obtain ⟨_, _, ⟨⟩, flush⟩ := bind_inv flush
  obtain ⟨_, all, rfl⟩ := withHigh_eq_ok flush
  obtain ⟨u', e, steps, all⟩ := bind_inv all
  obtain ⟨_, _, ⟨⟩, steps⟩ := bind_inv steps
  dsimp only at steps
  rw [wide] at steps
  refine ⟨u', e, steps, ?_⟩
  cases all
  cases ok
  rfl

theorem brings_stepWide (low : c.high = false) (free : c.accInUse = false)
    (distinct : cellAddress w scope.symbols name 0 ≠ cellAddress w scope.symbols name 1)
    (ok : stepWide v increments scope c = .ok u d) :
    Passed c d ∧ Brings w c d fun s => WordAssigned w scope.symbols name
      ((if increments then Op.add else .sub).onWords (wordAt w scope.symbols name s) 1) s := by
  obtain ⟨-, named, -, -⟩ := wideVariable?_eq_some wide
  rw [← named] at distinct ⊢
  unfold stepWide at ok
  split at ok
  · cases ok
  · cases increments with
    | true => exact incrementWide_runs low distinct ok
    | false => exact decrementWide_runs low distinct free ok

end

/-- A step of a word as a statement, written before its operand or behind it. -/
theorem exprStmt_step (defined : scope.symbols.Defined)
    (wide : wideVariable? scope.symbols (.var name .absent) = some v)
    (distinct : cellAddress w scope.symbols name 0 ≠ cellAddress w scope.symbols name 1)
    (low : c.high = false) (free : c.accInUse = false) (none : c.deferred = [])
    (ok : exprStmt (.incDec o (.var name .absent)) scope c = .ok u d) :
    Brings w c d fun s => WordAssigned w scope.symbols name
      ((if o.increments then Op.add else .sub).onWords (wordAt w scope.symbols name s) 1) s := by
  have ok : (incDec o (lower (.var name .absent)).toOperand >>= fun _ => endStatement) scope c =
      .ok u d := ok
  obtain ⟨place, between, steps, ok⟩ := bind_inv ok
  obtain ⟨_, _, found, steps⟩ := bind_inv steps
  obtain ⟨same, -⟩ := target_same defined wide found
  cases same
  obtain ⟨_, _, ⟨⟩, steps⟩ := bind_inv steps
  rw [low, if_neg Bool.false_ne_true] at steps
  split at steps
  · cases steps
    have deferred : c.deferred ++ [⟨.var name .absent, o.increments⟩] =
        [⟨.var name .absent, o.increments⟩] := by
      rw [none]
      rfl
    obtain ⟨u', e, steps, code⟩ := endStatement_step wide deferred ok
    have stepped := brings_stepWide (w := w)
      (c := { c with deferred := [], high := false }) wide rfl
      free distinct steps
    exact stepped.2.of_code code
  · obtain ⟨u', e, steps, ends⟩ := bind_inv steps
    cases ends
    obtain ⟨_, _, ⟨⟩, steps⟩ := bind_inv steps
    have isWide : wideVariable? scope.symbols (lower (.var name .absent)).expr = some v := wide
    rw [isWide] at steps
    obtain ⟨passed, brings⟩ := brings_stepWide wide low free distinct steps
    exact brings.of_code (endStatement_code (passed.high.trans low) (passed.deferred.trans none) ok)

end Updating

section Statements

variable {w : Surroundings} {scope : Scope} {name : String} {op : Op} {x y e : Expr}

theorem exprStmt_updates {c d : Context} {u : Unit} {v : Variable} {spotX spotY : Bool → Place}
    (defined : scope.symbols.Defined) (updates : Updates name op x y e)
    (isOp : op.isByteOp = true)
    (wide : wideVariable? scope.symbols (.var name .absent) = some v)
    (spotsX : Spots scope.symbols x spotX) (spotsY : Spots scope.symbols y spotY)
    (varies : ∀ high a b, ¬(spotX high = .immediate a ∧ spotY high = .immediate b))
    (separate : Separate w scope.symbols (updateCells scope.symbols name x y))
    (low : c.high = false) (free : c.accInUse = false) (none : c.deferred = [])
    (ok : exprStmt e scope c = .ok u d) :
    Brings w c d fun s => WordAssigned w scope.symbols name
      (op.onWords (x.asWord scope.symbols (bytesOf w scope.symbols s))
        (y.asWord scope.symbols (bytesOf w scope.symbols s))) s := by
  have distinct := separate.own.1
  have halves := Halves.of_varies defined isOp spotsX spotsY varies separate
  cases updates with
  | assign =>
    exact exprStmt_assigns defined wide isOp spotsX spotsY halves separate free low none ok
  | @compound o base own =>
    subst own
    have assigns : o.isAssign = true := by
      cases o <;> first | rfl | cases base
    obtain ⟨place, between, assigned, ends⟩ := exprStmt_assign assigns ok
    rcases assign_wide rfl wide low assigned with ⟨adds, known, u', steps⟩ | ⟨steady, passes⟩
    · obtain ⟨passed, brings⟩ := brings_stepWide (w := w) wide low free distinct steps
      have direction : op = if decide (o = .addAssign) then .add else .sub := by
        cases o <;> cases base <;> simp_all [Op.compound?]
      rw [expr_lower] at known
      refine (brings.mono fun s t assigned => ?_).of_code
        (endStatement_code (passed.high.trans low) (passed.deferred.trans none) ends)
      rw [asWord_var wide, spotsY.asWord_of_constant defined known, direction]
      exact assigned
    · have steady (adds : op = .add ∨ op = .sub) :
          constant? scope.symbols (lower y).expr ≠ some 1 := by
        rw [base] at steady
        exact fun known => steady ⟨by simpa using adds, known⟩
      obtain ⟨lowNow, deferred, brings⟩ := brings_assignWide defined wide isOp spotsX spotsY halves
        separate free (fun _ _ _ => movesUp_same isOp (.inl base))
        (fun c Q emits => emits_compoundByte base isOp steady emits) passes
      exact brings.of_code (endStatement_code lowNow (deferred.trans none) ends)
  | step own one direction =>
    subst own one
    refine (exprStmt_step defined wide distinct low free none ok).mono fun s t assigned => ?_
    rw [asWord_var wide, direction]
    exact assigned

/--
Code for an update of a word leaves the outcome of the operation on the words of both operands, at
least one of which is a variable of 16 bits.
-/
theorem stmt_updates_word (defined : scope.symbols.Defined) (updates : Updates name op x y e)
    (isOp : op.isByteOp = true) (word : (Expr.var name .absent).isWord scope.symbols = true)
    (first : x.isWordOperand scope.symbols = true) (second : y.isWordOperand scope.symbols = true)
    (either : x.isWord scope.symbols = true ∨ y.isWord scope.symbols = true)
    (separate : Separate w scope.symbols (updateCells scope.symbols name x y)) (loc : Loc)
    {c : Context} (low : c.high = false) (free : c.accInUse = false) (none : c.deferred = []) :
    Ensures (stmt (.expr loc e)) scope c fun _ d => ∃ code, d.code = c.code ++ code ∧
      ∀ s, s.decimal = false → ∃ t, Steps w code ⟨code, s⟩ ⟨[], t⟩ ∧
        WordAssigned w scope.symbols name
          (op.onWords (x.asWord scope.symbols (bytesOf w scope.symbols s))
            (y.asWord scope.symbols (bytesOf w scope.symbols s))) s t := by
  refine ensures_stmt fun _ d ok => ?_
  obtain ⟨v, wide⟩ := Option.isSome_iff_exists.mp word
  obtain ⟨spotX, spotsX⟩ := Spots.exists_of_isWordOperand defined first
  obtain ⟨spotY, spotsY⟩ := Spots.exists_of_isWordOperand defined second
  have varies (high : Bool) (a b : Int64) :
      ¬(spotX high = .immediate a ∧ spotY high = .immediate b) := by
    rintro ⟨left, right⟩
    rcases either with isWord | isWord
    · exact spotsX.ne_immediate defined isWord high a left
    · exact spotsY.ne_immediate defined isWord high b right
  refine stmt_brings low free none (fun begun low free none ok => ?_) ok
  exact exprStmt_updates defined updates isOp wide spotsX spotsY varies separate low free none ok

end Statements

def borrowSymbols : Table where
  vars := [{ name := "u", size := 2 }, { name := "w", size := 2 }]

def borrowPlaces : Surroundings where
  address
    | "u" => 0x200
    | "u+1" => 0x201
    | "w" => 0x210
    | "w+1" => 0x211
    | _ => 0x80
  verbatim _ _ := none
  call _ _ := none

def borrowStart : State where
  x := 0x0A
  memory := (({} : Memory).write 0x200 5).write 0x201 0x12

/-- The difference `u - X`, for which X has to be spilled, and which is assigned to `w`. -/
def borrowDifference : Expr :=
  .binary .sub (.var "u" .absent) (.var "X" .absent)

theorem borrowSymbols_defined : borrowSymbols.Defined :=
  .of_entries rfl

theorem borrow_separate : Separate borrowPlaces borrowSymbols
      (updateCells borrowSymbols "w" (.var "u" .absent) (.var "X" .absent)) := by
  constructor
  · decide +kernel
  · decide +kernel

/-- The low byte of 0x1205 - 0x0A borrows from the high one, and 0x11FB is left in `w`. -/
theorem borrow_updates_word :
    ∃ d t, stmt (.expr {} (.binary .assign (.var "w" .absent) borrowDifference))
        ⟨borrowSymbols, { name := "main" }⟩ {} = .ok () d ∧
      Steps borrowPlaces d.code ⟨d.code, borrowStart⟩ ⟨[], t⟩ ∧
        WordAssigned borrowPlaces borrowSymbols "w" 0x11FB borrowStart t := by
  have ensures := @stmt_updates_word borrowPlaces ⟨borrowSymbols, { name := "main" }⟩ "w" .sub
    (.var "u" .absent) (.var "X" .absent) _ borrowSymbols_defined .assign rfl (by decide +kernel)
    (by decide +kernel) (by decide +kernel) (.inl (by decide +kernel)) borrow_separate {} {}
    rfl rfl rfl
  have goes : goesThrough (stmt (.expr {} (.binary .assign (.var "w" .absent) borrowDifference)))
      ⟨borrowSymbols, { name := "main" }⟩ {} (fun _ => true) = true := by
    decide +kernel
  obtain ⟨d, ran, -, runs⟩ := ensures.exists_code rfl goes
  obtain ⟨t, steps, assigned⟩ := runs borrowStart rfl
  have value : Op.onWords .sub
      ((Expr.var "u" .absent).asWord borrowSymbols (bytesOf borrowPlaces borrowSymbols borrowStart))
      ((Expr.var "X" .absent).asWord borrowSymbols
        (bytesOf borrowPlaces borrowSymbols borrowStart)) = 0x11FB := by
    decide +kernel
  rw [value] at assigned
  exact ⟨d, t, ran, steps, assigned⟩

end Backend6502.Lowering

namespace Backend6502.Source

open Cpu (byteOf wordOf)
open Symbols (Table)

namespace Op

variable {op : Op} {a b k l : UInt16}

/--
Do the low bytes of two words carry? After a subtraction the carry says that nothing is borrowed.
-/
def carries (op : Op) (a b : UInt16) : Bool :=
  (op.withCarry (op.startCarry false) (byteOf false a) (byteOf false b)).2

/-- The low byte of one outcome and the high byte of another one, with no carry between them. -/
def unlinked (op : Op) (a b k l : UInt16) : UInt16 :=
  wordOf (byteOf false (op.onWords a b)) (byteOf true (op.onWords k l))

theorem byteOf_unlinked (high : Bool) : byteOf high (op.unlinked a b k l) =
      if high then byteOf true (op.onWords k l) else byteOf false (op.onWords a b) :=
  Cpu.byteOf_wordOf _ _ high

/-- The carry that a byte is computed with can be told from the byte, if it counts at all. -/
theorem carry_eq_of_withCarry {high₁ high₂ : UInt8} (isOp : op.isByteOp = true)
    (same : (op.withCarry (op.carries a b) high₁ high₂).1 =
      (op.withCarry (op.carries k l) high₁ high₂).1) : op.carries a b = op.carries k l := by
  have small := high₁.toNat_lt
  have small' := high₂.toNat_lt
  cases op with
  | add | sub =>
    have same := congrArg UInt8.toNat same
    simp only [withCarry, UInt8.toNat_ofNat'] at same
    cases first : carries _ a b <;> cases second : carries _ k l
    · rfl
    · rw [first, second, Bool.toNat_false, Bool.toNat_true] at same
      omega
    · rw [first, second, Bool.toNat_false, Bool.toNat_true] at same
      omega
    · rfl
  | and | or | xor => rfl
  | _ => cases isOp

/-- Two bytes that were computed apart make up the outcome exactly if the carries agree. -/
theorem unlinked_eq_iff (isOp : op.isByteOp = true) (left : byteOf true k = byteOf true a)
    (right : byteOf true l = byteOf true b) :
    op.unlinked a b k l = op.onWords a b ↔ op.carries k l = op.carries a b := by
  have high (a b : UInt16) : byteOf true (op.onWords a b) =
      (op.withCarry (op.carries a b) (byteOf true a) (byteOf true b)).1 :=
    byteOf_onWords_high isOp false a b
  constructor
  · intro same
    have same := congrArg (byteOf true) same
    rw [byteOf_unlinked, if_pos rfl, high, high, left, right] at same
    exact carry_eq_of_withCarry isOp same
  · intro agree
    refine Cpu.eq_of_byteOf fun second => ?_
    rw [byteOf_unlinked]
    cases second with
    | false => rfl
    | true => rw [if_pos rfl, high, high, left, right, agree]

end Op

/-- What is left of an operand if bytes and registers are zero. -/
def Expr.constantPart (table : Table) (β : Bytes) (e : Expr) : UInt16 :=
  if e.isFixed table then e.asWord table β else 0

end Backend6502.Source

namespace Backend6502.Lowering

open Code (Surroundings Steps)
open Cpu (Memory State byteOf)
open Source (Op Expr Loc isByteCell)
open Symbols (Table Variable)

variable {w : Surroundings} {scope : Scope} {name : String} {op : Op} {e x y : Expr}

section Narrow

variable {v : Variable} {spot spotX spotY : Bool → Place}

theorem isWord_of_narrow (defined : scope.symbols.Defined)
    (narrow : e.isNarrow scope.symbols = true) : wideVariable? scope.symbols e = none := by
  rcases Bool.or_eq_true_iff.mp narrow with isByte | isFixed
  · cases e with
    | var name index =>
      cases index with
      | absent =>
        cases found : scope.symbols.getVariable? name with
        | none => simp [wideVariable?, found]
        | some v =>
          have plain := Scope.plain_of_found defined found
          have both : isByteCell v = true ∧ v.signed = false := by
            simpa [Expr.isUnsignedByte, plain, found] using isByte
          exact narrow_of_isByteCell found both.1
      | _ => rfl
    | _ => rfl
  · exact wideVariable?_eq_none_of_isFixed isFixed

section

variable (spots : Spots scope.symbols e spot) (defined : scope.symbols.Defined)
  (narrow : e.isNarrow scope.symbols = true)

include spots defined narrow

theorem Spots.high_of_narrow (β : Source.Bytes) :
    ∃ n, spot true = .immediate n ∧ Source.lowWord n = e.constantPart scope.symbols β := by
  have zero (varies : e.isFixed scope.symbols = false) :
      Source.lowWord 0 = e.constantPart scope.symbols β := by
    rw [Expr.constantPart, varies, if_neg Bool.false_ne_true]
    rfl
  have register {name : String} (isRegister : isRegisterName name = true) :
      (Expr.var name .absent).isFixed scope.symbols = false := by
    rw [Expr.isFixed, Scope.registers_free defined name isRegister]
    rfl
  cases spots with
  | word found =>
    rw [isWord_of_narrow defined narrow] at found
    cases found
  | byte found isByte =>
    refine ⟨0, rfl, zero ?_⟩
    rw [Expr.isFixed, found]
    simp [isConst_of_isByteCell isByte]
  | x | y => exact ⟨0, rfl, zero (register rfl)⟩
  | fixed isFixed value =>
    refine ⟨_, rfl, ?_⟩
    rw [Expr.constantPart, isFixed, if_pos rfl,
      Expr.asWord_of_narrow (wideVariable?_eq_none_of_isFixed isFixed), value]

theorem Spots.byteOf_constantPart (s : State) :
    byteOf true (e.constantPart scope.symbols (bytesOf w scope.symbols s)) =
      byteOf true (e.asWord scope.symbols (bytesOf w scope.symbols s)) := by
  obtain ⟨n, stands, isPart⟩ := spots.high_of_narrow defined narrow (bytesOf w scope.symbols s)
  rw [← spots.part_eq defined true s, stands, Place.part_immediate, isPart]

end

/-- Two narrow operands are constants in the pass for high bytes, so the carry is not used. -/
theorem Halves.of_narrow (defined : scope.symbols.Defined) (isOp : op.isByteOp = true)
    (spotsX : Spots scope.symbols x spotX) (spotsY : Spots scope.symbols y spotY)
    (first : x.isNarrow scope.symbols = true) (second : y.isNarrow scope.symbols = true) :
    Halves w scope.symbols name op spotX spotY fun s =>
      op.unlinked (x.asWord scope.symbols (bytesOf w scope.symbols s))
        (y.asWord scope.symbols (bytesOf w scope.symbols s))
        (x.constantPart scope.symbols (bytesOf w scope.symbols s))
        (y.constantPart scope.symbols (bytesOf w scope.symbols s)) where
  low s := by
    rw [Op.byteOf_unlinked, if_neg Bool.false_ne_true]
    exact outcome_low isOp (spotsX.part_eq defined false s) (spotsY.part_eq defined false s)
  high s t _ _ := by
    obtain ⟨m, left, isLeft⟩ := spotsX.high_of_narrow defined first (bytesOf w scope.symbols s)
    obtain ⟨n, right, isRight⟩ := spotsY.high_of_narrow defined second (bytesOf w scope.symbols s)
    rw [left, right, Op.byteOf_unlinked, if_pos rfl, ← isLeft, ← isRight]
    change (Place.immediate (op.onNumbers m n)).part w scope.symbols true t = _
    rw [Place.part_immediate, Source.lowWord_onNumbers isOp]

end Narrow

section Statements

theorem exists_spots_of_narrow (defined : scope.symbols.Defined)
    (narrow : e.isNarrow scope.symbols = true) : ∃ spot, Spots scope.symbols e spot :=
  Spots.exists_of_isWordOperand defined (Bool.or_eq_true_iff.mpr (.inr narrow))

/-- Code for an assignment of a narrow operation to a word stores two bytes that are not linked. -/
theorem stmt_unlinked (defined : scope.symbols.Defined) (isOp : op.isByteOp = true)
    (word : (Expr.var name .absent).isWord scope.symbols = true)
    (first : x.isNarrow scope.symbols = true) (second : y.isNarrow scope.symbols = true)
    (separate : Separate w scope.symbols (updateCells scope.symbols name x y)) (loc : Loc)
    {c : Context} (low : c.high = false) (free : c.accInUse = false) (none : c.deferred = []) :
    Ensures (stmt (.expr loc (.binary .assign (.var name .absent) (.binary op x y)))) scope c
      fun _ d => ∃ code, d.code = c.code ++ code ∧ ∀ s, s.decimal = false →
        ∃ t, Steps w code ⟨code, s⟩ ⟨[], t⟩ ∧ WordAssigned w scope.symbols name
          (op.unlinked (x.asWord scope.symbols (bytesOf w scope.symbols s))
            (y.asWord scope.symbols (bytesOf w scope.symbols s))
            (x.constantPart scope.symbols (bytesOf w scope.symbols s))
            (y.constantPart scope.symbols (bytesOf w scope.symbols s))) s t := by
  refine ensures_stmt fun _ d ok => ?_
  obtain ⟨v, wide⟩ := Option.isSome_iff_exists.mp word
  obtain ⟨spotX, spotsX⟩ := exists_spots_of_narrow defined first
  obtain ⟨spotY, spotsY⟩ := exists_spots_of_narrow defined second
  refine stmt_brings low free none (fun begun low free none ok => ?_) ok
  exact exprStmt_assigns defined wide isOp spotsX spotsY
    (.of_narrow defined isOp spotsX spotsY first second) separate free low none ok

/--
The word that is stored for two narrow operands is the outcome of the operation exactly if the low
bytes of the operands carry as those of their constant parts do.
-/
theorem stmt_assigns_narrow (defined : scope.symbols.Defined) (isOp : op.isByteOp = true)
    (word : (Expr.var name .absent).isWord scope.symbols = true)
    (first : x.isNarrow scope.symbols = true) (second : y.isNarrow scope.symbols = true)
    (separate : Separate w scope.symbols (updateCells scope.symbols name x y)) (loc : Loc)
    {c : Context} (low : c.high = false) (free : c.accInUse = false) (none : c.deferred = []) :
    Ensures (stmt (.expr loc (.binary .assign (.var name .absent) (.binary op x y)))) scope c
      fun _ d => ∃ code, d.code = c.code ++ code ∧ ∀ s, s.decimal = false →
        let β := bytesOf w scope.symbols s
        let stored := op.unlinked (x.asWord scope.symbols β) (y.asWord scope.symbols β)
          (x.constantPart scope.symbols β) (y.constantPart scope.symbols β)
        (∃ t, Steps w code ⟨code, s⟩ ⟨[], t⟩ ∧ WordAssigned w scope.symbols name stored s t) ∧
          (stored = op.onWords (x.asWord scope.symbols β) (y.asWord scope.symbols β) ↔
            op.carries (x.constantPart scope.symbols β) (y.constantPart scope.symbols β) =
              op.carries (x.asWord scope.symbols β) (y.asWord scope.symbols β)) := by
  refine (stmt_unlinked defined isOp word first second separate loc low free none).mono
    fun _ d => ?_
  rintro ⟨code, added, runs⟩
  obtain ⟨spotX, spotsX⟩ := exists_spots_of_narrow defined first
  obtain ⟨spotY, spotsY⟩ := exists_spots_of_narrow defined second
  refine ⟨code, added, fun s binary => ⟨runs s binary, ?_⟩⟩
  exact Op.unlinked_eq_iff isOp (spotsX.byteOf_constantPart defined first s)
    (spotsY.byteOf_constantPart defined second s)

end Statements

/-- Two bytes, a word and a constant. -/
def bytesSymbols : Table where
  vars := [{ name := "a", size := 1 }, { name := "b", size := 1 },
    { name := "k", size := 2, isConst := true, value := 300 }, { name := "w", size := 2 }]

def bytesPlaces : Surroundings where
  address
    | "a" => 0x200
    | "b" => 0x201
    | "w" => 0x210
    | "w+1" => 0x211
    | _ => 0x80
  verbatim _ _ := none
  call _ _ := none

def bytesStart (a b : UInt8) : State where
  memory := (({} : Memory).write 0x200 a).write 0x201 b

theorem bytesSymbols_defined : bytesSymbols.Defined :=
  .of_entries rfl

/-- The assignment of an operation on `a` and another operand to `w`. -/
def bytesAssignment (op : Op) (other : String) : Expr :=
  .binary .assign (.var "w" .absent) (.binary op (.var "a" .absent) (.var other .absent))

/-- In `w = 10 - k` with the constant 300 the low bytes borrow, as those of 0 - 300 do. -/
theorem byte_less_constant_assigned :
    ∃ d t, stmt (.expr {} (bytesAssignment .sub "k")) ⟨bytesSymbols, { name := "main" }⟩ {} =
        .ok () d ∧
      Steps bytesPlaces d.code ⟨d.code, bytesStart 10 0⟩ ⟨[], t⟩ ∧
        WordAssigned bytesPlaces bytesSymbols "w" (10 - 300) (bytesStart 10 0) t := by
  have ensures := @stmt_assigns_narrow bytesPlaces ⟨bytesSymbols, { name := "main" }⟩ "w" .sub
    (.var "a" .absent) (.var "k" .absent) bytesSymbols_defined rfl (by decide +kernel)
    (by decide +kernel) (by decide +kernel) (by constructor <;> decide +kernel) {} {} rfl rfl rfl
  have goes : goesThrough (stmt (.expr {} (bytesAssignment .sub "k")))
      ⟨bytesSymbols, { name := "main" }⟩ {} (fun _ => true) = true := by
    decide +kernel
  obtain ⟨d, ran, -, runs⟩ := ensures.exists_code rfl goes
  obtain ⟨⟨t, steps, assigned⟩, right⟩ := runs (bytesStart 10 0) rfl
  rw [right.mpr (by decide +kernel)] at assigned
  exact ⟨d, t, ran, steps, assigned⟩

/-- The sum of 200 and 200 is stored without its carry. -/
theorem sum_of_bytes_not_assigned :
    ∃ d t, stmt (.expr {} (bytesAssignment .add "b")) ⟨bytesSymbols, { name := "main" }⟩ {} =
        .ok () d ∧
      Steps bytesPlaces d.code ⟨d.code, bytesStart 200 200⟩ ⟨[], t⟩ ∧
        wordAt bytesPlaces bytesSymbols "w" t ≠ 200 + 200 := by
  obtain ⟨_, d, t, ran, steps, lost⟩ := @exists_run_of_goesThrough _
    (stmt (.expr {} (bytesAssignment .add "b"))) bytesPlaces ⟨bytesSymbols, { name := "main" }⟩ {}
    (bytesStart 200 200) (wordAt bytesPlaces bytesSymbols "w" · != 200 + 200) 20 (by decide +kernel)
  exact ⟨d, t, ran, steps, bne_iff_ne.mp lost⟩

end Backend6502.Lowering
