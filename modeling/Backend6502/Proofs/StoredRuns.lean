import Backend6502.Proofs.ByteAssignments
import Backend6502.Proofs.Conditions

/-!
# Runs of a program and its store

While a program runs, the memory and the index registers stand for the store of the program. Writes
to the scratch cell and to the byte at the top of the stack do not touch the store, and the code of
an assignment changes it as the assignment says and not otherwise. The code of a condition jumps or
goes on as the condition holds of the store, and leaves the store as it is.
-/

namespace Backend6502.Lowering

open Code (Surroundings)
open Cpu (State)
open Source (Op Expr Store Bytes isCell isByteCell)
open Symbols (Table)

/-- Where a program runs: the cells of its variables lie apart from all that code writes besides. -/
structure Setting where
  w : Surroundings
  scope : Scope
  start : State
  registers_free : ∀ name, isRegisterName name = true → scope.symbols.getVariable? name = none
  cells_apart : ∀ m n, isCell scope.symbols m = true → isCell scope.symbols n = true →
    cellAddress w scope.symbols m 0 = cellAddress w scope.symbols n 0 → m = n
  scratch_apart : ∀ n, isCell scope.symbols n = true →
    cellAddress w scope.symbols n 0 ≠ scratchAddress w
  stack_apart : ∀ n, isCell scope.symbols n = true →
    cellAddress w scope.symbols n 0 ≠ start.stackTop

namespace Setting

abbrev table (S : Setting) : Table :=
  S.scope.symbols

def address (S : Setting) (name : String) : UInt16 :=
  cellAddress S.w S.table name 0

def scratch (S : Setting) : UInt16 :=
  scratchAddress S.w

/-- The address of the byte that a push writes. -/
def top (S : Setting) : UInt16 :=
  S.start.stackTop

/-- The byte variables, and the states that the stack is as it was in. -/
abbrev ground (S : Setting) : Ground where
  w := S.w
  scope := S.scope
  cells name offset := isCell S.table name = true ∧ offset = 0
  starts s := s.decimal = false ∧ s.sp = S.start.sp
  arithmetic := True
  registers_free := S.registers_free
  scratch_apart := by
    rintro name _ ⟨cell, rfl⟩
    exact S.scratch_apart name cell
  stack_apart := by
    rintro - s ⟨-, stack⟩ name _ ⟨cell, rfl⟩
    rw [State.stackTop, stack]
    exact S.stack_apart name cell
  binary _ _ starts := starts.1

end Setting

/-- The state of the processor stands for a store, and nothing else has changed since the start. -/
structure Follows (S : Setting) (σ : Store) (s : State) : Prop where
  cells : ∀ name, isCell S.table name = true → s.read (S.address name) = σ.cell name
  x : s.x = σ.x
  y : s.y = σ.y
  binary : s.decimal = false
  stack : s.sp = S.start.sp
  others : ∀ address, address ≠ S.scratch → address ≠ S.top →
    (∀ name, isCell S.table name = true → address ≠ S.address name) →
      s.read address = S.start.read address

namespace Follows

variable {S : Setting} {σ : Store} {s t : State}

section

variable (follows : Follows S σ s)

include follows

theorem starts : S.ground.starts s :=
  ⟨follows.binary, follows.stack⟩

/-- What code does on its way does not touch the store. -/
theorem near (near : Near S.ground s t) : Follows S σ t where
  cells name cell := by
    have same := near.memory (S.address name) (S.ground.not_spare follows.starts ⟨cell, rfl⟩)
    rw [same, follows.cells name cell]
  x := near.x.trans follows.x
  y := near.y.trans follows.y
  binary := near.decimal.trans follows.binary
  stack := near.sp.trans follows.stack
  others address noScratch noTop noCell := by
    have free : ¬S.ground.Spare s address := by
      rintro (scratch | ⟨-, top⟩)
      · exact noScratch scratch
      · rw [State.stackTop, follows.stack] at top
        exact noTop top
    rw [near.memory address free, follows.others address noScratch noTop noCell]

theorem alike (same : s.Alike t) : Follows S σ t :=
  follows.near ((Near.refl follows.starts).alike same)

theorem assign {name : String} (cell : isCell S.table name = true) (b : UInt8) :
    Follows S { σ with cell := fun other => if other = name then b else σ.cell other }
      (s.write (S.address name) b) where
  cells other isOther := by
    rw [State.read_write]
    by_cases same : other = name
    · rw [same, if_pos rfl]
      exact (if_pos rfl).symm
    · have apart : S.address name ≠ S.address other := fun equal =>
        same (S.cells_apart name other cell isOther equal).symm
      rw [if_neg apart, follows.cells other isOther]
      exact (if_neg same).symm
  x := follows.x
  y := follows.y
  binary := follows.binary
  stack := follows.stack
  others other noScratch noTop noCell := by
    rw [State.read_write, if_neg (noCell name cell).symm,
      follows.others other noScratch noTop noCell]

theorem put {name : String} {place : Place}
    (names : Names S.table name place) (known : Expr.isByteTarget S.table name = true) (b : UInt8) :
    Follows S (σ.write name b) (place.put S.w S.table b s) := by
  cases names with
  | x => exact ⟨follows.cells, rfl, follows.y, follows.binary, follows.stack, follows.others⟩
  | y => exact ⟨follows.cells, follows.x, rfl, follows.binary, follows.stack, follows.others⟩
  | constant plain found fixed =>
    rw [Expr.isByteTarget, plain, isCell, found] at known
    simp [isByteCell, fixed] at known
  | cell plain found isByte =>
    obtain ⟨notX, notY⟩ := Names.ne_of_plain plain
    have cell : isCell S.table name = true := by
      rw [isCell, found]
      exact isByte
    rw [Store.write, if_neg notX, if_neg notY]
    exact follows.assign cell b

end

end Follows

section Reading

variable {S : Setting} {σ : Store} {s : State}

/-- Expressions of byte arithmetic are terms, and read nothing but byte variables. -/
theorem isTerm_of_isByteExpr {table : Table} : ∀ {e : Expr}, e.isByteExpr table = true →
    e.isTerm table = true ∧ ∀ p ∈ e.cells table, isCell table p.1 = true ∧ p.2 = 0
  | .int _, _ => ⟨rfl, nofun⟩
  | .var name .absent, known => by
      refine ⟨known, fun p inside => ?_⟩
      rw [Expr.cells] at inside
      split at inside
      · next cell =>
        cases List.mem_singleton.mp inside
        exact ⟨cell, rfl⟩
      · cases inside
  | .binary op l r, isByte => by
      rw [Expr.isByteExpr] at isByte
      obtain ⟨both, isByteR⟩ := Bool.and_eq_true_iff.mp isByte
      obtain ⟨isOp, isByteL⟩ := Bool.and_eq_true_iff.mp both
      obtain ⟨termL, cellsL⟩ := isTerm_of_isByteExpr isByteL
      obtain ⟨termR, cellsR⟩ := isTerm_of_isByteExpr isByteR
      cases op with
      | add | sub | and | or | xor =>
        exact ⟨by simp [Expr.isTerm, Op.isByteOp, termL, termR], fun p inside =>
          (List.mem_append.mp inside).elim (cellsL p) (cellsR p)⟩
      | _ => cases isOp
  | .unary op e, isByte => by
      rw [Expr.isByteExpr] at isByte
      obtain ⟨isOp, isByteE⟩ := Bool.and_eq_true_iff.mp isByte
      obtain ⟨term, cells⟩ := isTerm_of_isByteExpr isByteE
      exact ⟨by rw [Expr.isTerm, isOp, term]; rfl, cells⟩

theorem Follows.read_eq (follows : Follows S σ s) {name : String}
    (known : Expr.isByteName S.table name = true) :
    σ.read S.table name = lowByte ((bytesOf S.w S.table s).scalar S.table name) := by
  unfold Store.read Bytes.scalar
  split
  · rw [Source.lowByte_extended]
    exact follows.x.symm
  split
  · rw [Source.lowByte_extended]
    exact follows.y.symm
  next notX notY =>
    unfold Expr.isByteName isCell isRegisterName at known
    cases found : S.table.getVariable? name with
    | none =>
      rw [found] at known
      simp [notX, notY] at known
    | some v =>
      dsimp only
      split
      · rfl
      next varies =>
        have cell : isCell S.table name = true := by
          rw [isCell, found]
          simpa [found, notX, notY, varies] using known
        rw [Source.lowByte_extended]
        exact (follows.cells name cell).symm

theorem Follows.byte_eq (follows : Follows S σ s) : ∀ {e : Expr}, e.isByteExpr S.table = true →
    e.byte S.table σ = lowByte (e.asNumber S.table (bytesOf S.w S.table s))
  | .int _, _ => rfl
  | .var name .absent, known => follows.read_eq known
  | .binary op l r, isByte => by
      rw [Expr.isByteExpr] at isByte
      obtain ⟨both, isByteR⟩ := Bool.and_eq_true_iff.mp isByte
      obtain ⟨isOp, isByteL⟩ := Bool.and_eq_true_iff.mp both
      rw [Expr.byte, follows.byte_eq isByteL, follows.byte_eq isByteR, Expr.asNumber_binary isOp,
        Op.lowByte_onNumbers isOp]
  | .unary op e, isByte => by
      rw [Expr.isByteExpr] at isByte
      obtain ⟨isOp, isByteE⟩ := Bool.and_eq_true_iff.mp isByte
      have inner := follows.byte_eq isByteE
      cases op with
      | neg =>
        change -e.byte S.table σ = lowByte (-_)
        rw [inner]
        simp [lowByte]
      | bitNot =>
        change ~~~ e.byte S.table σ = lowByte (~~~ _)
        rw [inner]
        simp [lowByte]
      | _ => cases isOp

end Reading

/-- The state stands for a store, and the flags show what they are believed to show. -/
structure Sound (S : Setting) (σ : Store) (flags : Flags) (s : State) : Prop where
  follows : Follows S σ s
  shown : flags.Shown S.ground s

/-- The store has been changed, whatever it was, and the accumulator is as free as before. -/
structure Changed (S : Setting) (change : Store → Store) (c d : Context) (g : State → State) :
    Prop where
  kept : Kept c d
  acc : d.accInUse = c.accInUse
  sound : ∀ σ s, Sound S σ c.flags s → Sound S (change σ) d.flags (g s)

section Assigning

variable {S : Setting} {c : Context}
variable {name : String} {place : Place}

/-- A byte variable lies apart from all others. -/
theorem Names.tracks (names : Names S.table name place) : S.ground.Tracks place := by
  cases names with
  | cell plain found isByte =>
    have cell : isCell S.table name = true := by
      rw [isCell, found]
      exact isByte
    refine ⟨⟨cell, rfl⟩, ?_⟩
    rintro other _ ⟨isOther, rfl⟩ apart same
    exact apart (S.cells_apart name other cell isOther same).symm
  | _ => trivial

theorem Assigns.changed {rhs : Expr} {d : Context} {g : State → State}
    (known : Expr.isByteTarget S.table name = true) (isByte : rhs.isByteExpr S.table = true)
    (assigns : Assigns S.ground name
      (fun s => lowByte (rhs.asNumber S.table (bytesOf S.w S.table s))) place c d g) :
    Changed S (fun σ => σ.write name (rhs.byte S.table σ)) c d g := by
  refine ⟨assigns.kept, assigns.acc, fun σ s ⟨follows, shown⟩ => ⟨?_, ?_⟩⟩
  · obtain ⟨t, near, alike⟩ := assigns.run s follows.starts
    rw [follows.byte_eq isByte]
    exact ((follows.near near).put assigns.names known _).alike alike
  · exact assigns.shown assigns.names.tracks s follows.starts shown

theorem emits_exprStmt {e : Expr} (isStep : e.isByteStep S.table = true) (low : c.high = false)
    (free : c.accInUse = false) (none : c.deferred = []) :
    Emits S.w S.scope c (exprStmt e) fun _ => Changed S (fun σ => e.perform S.table σ) c := by
  have ends : Emits S.w S.scope c endStatement fun _ => Changed S id c := by
    refine (emits_endStatement low none).mono fun _ d g ⟨same, nothing⟩ => ?_
    cases same
    cases nothing
    exact ⟨⟨rfl, rfl, rfl, rfl, rfl, rfl⟩, free.symm, fun _ _ => id⟩
  match e, isStep with
  | .absent, _ => exact ends
  | .nothing, _ => exact ends
  | .binary .assign (.var name .absent) rhs, isStep =>
    obtain ⟨known, isByte⟩ := Bool.and_eq_true_iff.mp isStep
    obtain ⟨isTerm, cells⟩ := isTerm_of_isByteExpr isByte
    have assigns := emits_assignStmt (G := S.ground) known
      (computes_lower trivial isTerm cells) low free none
    exact assigns.mono fun _ d g ⟨place, assigns⟩ => assigns.changed known isByte

end Assigning

open Source (fitsByte)

variable {S : Setting} {L : Listing} {c d : Context} {σ : Store} {name label : String} {op : Op}
  {s : State} {table : Table}

/-- A run goes from one place to another, and the store changes from one to the other. -/
def Goes (S : Setting) (L : Listing) (c : Context) (σ : Store) (d : Context) (σ' : Store) : Prop :=
  Reaches S.w L c d (Sound S σ c.flags) (Sound S σ' d.flags)

/-- A run jumps from a place to a label, and the store changes from one to the other. -/
def Jumps (S : Setting) (L : Listing) (c : Context) (σ : Store) (label : String) (σ' : Store) :
    Prop :=
  Escapes S.w L c label (Sound S σ c.flags) (Sound S σ' .unknown)

section Moves

variable {e : Context} {σ' σ'' : Store}

theorem Goes.refl (c : Context) (σ : Store) : Goes S L c σ c σ :=
  Reaches.refl c _

theorem Goes.trans (first : Goes S L c σ d σ') (second : Goes S L d σ' e σ'') :
    Goes S L c σ e σ'' :=
  Reaches.trans first second

theorem Goes.jumps (first : Goes S L c σ d σ') (second : Jumps S L d σ' name σ'') :
    Jumps S L c σ name σ'' :=
  Reaches.escapes first second

theorem Goes.pastLabel (laid : L.Holds (c.labelled name)) (σ : Store) :
    Goes S L c σ (c.labelled name) σ := by
  intro s sound
  obtain ⟨t, steps, after⟩ := Reaches.pastLabel (w := S.w) laid (Sound S σ c.flags) s sound
  exact ⟨t, steps, after.follows, trivial⟩

theorem Jumps.lands (jumps : Jumps S L e σ name σ') (fresh : L.Fresh c)
    (laid : L.Holds (c.labelled name)) : Goes S L e σ (c.labelled name) σ' :=
  Escapes.lands jumps fresh laid

end Moves

/-- The code of a condition goes to a label for some stores, and goes on for the others. -/
structure Tested (S : Setting) (L : Listing) (label : String) (jumps : Store → Bool)
    (c d : Context) : Prop where
  lays : Lays [] c d
  taken : L.Holds d → ∀ σ, jumps σ = true → Jumps S L c σ label σ
  passed : L.Holds d → ∀ σ, jumps σ = false → Goes S L c σ d σ

section Testing

variable {u : Unit}

/-- What is decided by the state is tested on the store that the state stands for. -/
theorem Decides.tested {jumps : State → Bool} {asks : Store → Bool}
    (agree : ∀ σ s, Follows S σ s → jumps s = asks σ)
    (decides : Decides S.ground L label jumps c d) : Tested S L label asks c d where
  lays := decides.lays
  taken laid σ asked s sound := by
    have known : Known S.ground s c.flags s := ⟨.refl sound.follows.starts, sound.shown⟩
    have jumps := (agree σ s sound.follows).trans asked
    obtain ⟨line, rest, t, steps, leaves, after⟩ := decides.taken laid s jumps s known
    exact ⟨line, rest, t, steps, leaves, sound.follows.near after.near, trivial⟩
  passed laid σ asked s sound := by
    have known : Known S.ground s c.flags s := ⟨.refl sound.follows.starts, sound.shown⟩
    have stays := (agree σ s sound.follows).trans asked
    obtain ⟨t, steps, after⟩ := decides.passed laid s stays s known
    exact ⟨t, steps, sound.follows.near after.near, after.shown⟩

theorem tested_known {b : Bool} {scope : Scope}
    (ok : (if b = true then emitJump label else pure ()) scope c = .ok u d) :
    Tested S L label (fun _ => b) c d :=
  (decides_known ok).tested fun _ _ _ => rfl

end Testing

/-- A name that can be compared is one of a register, of an unsigned byte or of a small constant. -/
theorem comparand_cases (known : (Expr.var name .absent).isComparand table = true) :
    isRegisterName name = true ∨ ∃ v, table.getVariable? name = some v ∧
      (isByteCell v = true ∧ v.signed = false ∨
        v.isConst = true ∧ v.length = 0 ∧ fitsByte v.value = true) := by
  change (isRegisterName name || (table.getVariable? name).any _) = true at known
  refine (Bool.or_eq_true_iff.mp known).imp_right fun listed => ?_
  obtain ⟨v, found, holds⟩ := (Option.any_eq_true _ _).mp listed
  refine ⟨v, found, (Bool.or_eq_true_iff.mp holds).imp (fun byte => ?_) fun fixed => ?_⟩
  · simpa using byte
  · simpa [and_assoc] using fixed

theorem isOperand_of_isComparand : ∀ {e : Expr}, e.isComparand table = true →
      e.isByteExpr table = true ∧ e.isOperand table = true
  | .int _, _ => ⟨rfl, rfl⟩
  | .var name .absent, known => by
      rw [Expr.isByteExpr, Expr.isByteName, isCell, Expr.isOperand, Expr.isUnsignedByte]
      rcases comparand_cases known with register | ⟨v, found, ⟨byte, unsigned⟩ | ⟨fixed, none, -⟩⟩
      · simp [register]
      · simp [found, byte, unsigned]
      · simp [found, fixed, none, constant?, constantVariable?, Expr.isTerm, Expr.isByteName]

/-- Conditions are tests, and read nothing but byte variables. -/
theorem isTest_of_isCondition : ∀ {e : Expr}, e.isCondition table = true →
    e.isTest table = true ∧ ∀ p ∈ e.cells table, isCell table p.1 = true ∧ p.2 = 0
  | .binary op l r, isCondition => by
      have noShift : op ≠ .shl := by
        rintro rfl
        cases isCondition
      rw [Expr.isCondition] at isCondition
      rw [Expr.isTest, Expr.cells_binary noShift]
      split at isCondition
      · next compares =>
        obtain ⟨isLeft, isRight⟩ := Bool.and_eq_true_iff.mp isCondition
        obtain ⟨byteL, operandL⟩ := isOperand_of_isComparand isLeft
        obtain ⟨byteR, operandR⟩ := isOperand_of_isComparand isRight
        rw [if_pos compares, operandL, operandR]
        exact ⟨rfl, fun p inside => (List.mem_append.mp inside).elim
          ((isTerm_of_isByteExpr byteL).2 p) ((isTerm_of_isByteExpr byteR).2 p)⟩
      · next other =>
        obtain ⟨joined, isRight⟩ := Bool.and_eq_true_iff.mp isCondition
        obtain ⟨joins, isLeft⟩ := Bool.and_eq_true_iff.mp joined
        obtain ⟨testL, cellsL⟩ := isTest_of_isCondition isLeft
        obtain ⟨testR, cellsR⟩ := isTest_of_isCondition isRight
        rw [if_neg other, joins, testL, testR]
        exact ⟨rfl, fun p inside => (List.mem_append.mp inside).elim (cellsL p) (cellsR p)⟩
  | .unary op e, isCondition => by
      obtain ⟨isNot, inner⟩ := Bool.and_eq_true_iff.mp isCondition
      obtain ⟨test, cells⟩ := isTest_of_isCondition inner
      exact ⟨by rw [Expr.isTest, isNot, test]; rfl, cells⟩

theorem toNat_lowByte {n : Int64} (fits : fitsByte n = true) :
    ((lowByte n).toNat : Int) = n.toInt := by
  unfold fitsByte at fits
  simp only [Bool.and_eq_true, decide_eq_true_eq, Int64.le_iff_toInt_le,
    Int64.lt_iff_toInt_lt] at fits
  have bits : n.toInt = if 2 * n.toUInt64.toNat < 2 ^ 64 then (n.toUInt64.toNat : Int)
      else n.toUInt64.toNat - 2 ^ 64 := BitVec.toInt_eq_toNat_cond _
  have low : (lowByte n).toNat = n.toUInt64.toNat % 2 ^ 8 := UInt64.toNat_toUInt8 _
  have zero : (0 : Int64).toInt = 0 := rfl
  have limit : (256 : Int64).toInt = 256 := rfl
  rw [low]
  split at bits <;> omega

theorem orders_eq (compares : op.isCompare = true) {a b : Int64}
    (fitsA : fitsByte a = true) (fitsB : fitsByte b = true) :
    op.orders a b = op.compares (lowByte a) (lowByte b) := by
  have left := toNat_lowByte fitsA
  have right := toNat_lowByte fitsB
  rw [Bool.eq_iff_iff]
  cases op with
  | lt | gt | le | ge | eq | ne =>
    simp only [Op.orders, Op.compares, decide_eq_true_eq, beq_iff_eq, bne_iff_ne, ne_eq,
      Int64.le_iff_toInt_le, Int64.lt_iff_toInt_lt, ← Int64.toInt_inj, UInt8.le_iff_toNat_le,
      UInt8.lt_iff_toNat_lt, ← UInt8.toNat_inj]
    omega
  | _ => cases compares

section Conditions

theorem fitsByte_of_isComparand : ∀ {e : Expr} {n : Int64}, e.isComparand S.table = true →
    constant? S.table e = some n → fitsByte n = true
  | .int _, _, known, fixed => by
      cases fixed
      exact known
  | .var name .absent, n, known, fixed => by
      obtain ⟨plain, v, found, isConst, rfl⟩ :=
        constantVariable?_eq_some (G := S.ground) fixed
      rcases comparand_cases known with register | ⟨v', again, ⟨byte, -⟩ | ⟨-, -, fits⟩⟩
      · cases plain.symm.trans register
      · cases Option.some.inj (found.symm.trans again)
        cases (isConst_of_isByteCell byte).symm.trans isConst
      · cases Option.some.inj (found.symm.trans again)
        exact fits

/-- Bytes are compared as the store says, and so are constants that fit a byte. -/
theorem Follows.compares_eq {l r : Expr} (follows : Follows S σ s)
    (compares : op.isCompare = true) (isLeft : l.isComparand S.table = true)
    (isRight : r.isComparand S.table = true) :
    (Expr.binary op l r).isTrue S.table (bytesOf S.w S.table s) =
      op.compares (l.byte S.table σ) (r.byte S.table σ) := by
  obtain ⟨byteL, -⟩ := isOperand_of_isComparand isLeft
  obtain ⟨byteR, -⟩ := isOperand_of_isComparand isRight
  have bytes (varies : constant? S.table l = none ∨ constant? S.table r = none) :
      (Expr.binary op l r).isTrue S.table (bytesOf S.w S.table s) =
        op.compares (l.byte S.table σ) (r.byte S.table σ) := by
    rw [isTrue_bytes compares varies, follows.byte_eq byteL, follows.byte_eq byteR]
  cases left : constant? S.table l with
  | none => exact bytes (.inl left)
  | some a =>
    cases right : constant? S.table r with
    | none => exact bytes (.inr right)
    | some b =>
      have termL := (isTerm_of_isByteExpr byteL).1
      have termR := (isTerm_of_isByteExpr byteR).1
      rw [isTrue_constants compares left right, follows.byte_eq byteL, follows.byte_eq byteR,
        (fixes_lower (G := S.ground) termL left).2, (fixes_lower (G := S.ground) termR right).2]
      exact orders_eq compares (fitsByte_of_isComparand isLeft left)
        (fitsByte_of_isComparand isRight right)

theorem Follows.holds_eq (follows : Follows S σ s) :
    ∀ {e : Expr}, e.isCondition S.table = true →
      e.isTrue S.table (bytesOf S.w S.table s) = e.holds S.table σ
  | .binary op l r, isCondition => by
      rw [Expr.isCondition] at isCondition
      split at isCondition
      · next compares =>
        obtain ⟨isLeft, isRight⟩ := Bool.and_eq_true_iff.mp isCondition
        rw [follows.compares_eq compares isLeft isRight]
        cases op with
        | lt | gt | le | ge | eq | ne => rfl
        | _ => cases compares
      · obtain ⟨joined, isRight⟩ := Bool.and_eq_true_iff.mp isCondition
        obtain ⟨joins, isLeft⟩ := Bool.and_eq_true_iff.mp joined
        have left := follows.holds_eq isLeft
        have right := follows.holds_eq isRight
        cases op with
        | logAnd | logOr => rw [Expr.isTrue, Expr.holds, left, right]
        | _ => cases joins
  | .unary op e, isCondition => by
      obtain ⟨-, inner⟩ := Bool.and_eq_true_iff.mp isCondition
      rw [Expr.isTrue, Expr.holds, follows.holds_eq inner]

/-- The code of a condition goes to a label if the condition comes out as asked. -/
theorem tested_lower {e : Expr} (isCondition : e.isCondition S.table = true)
    {negate : Bool} (ready : Ready L c)
    (ok : (lower e).test label negate S.scope c = .ok () d) :
    Tested S L label (fun σ => e.holds S.table σ != negate) c d := by
  obtain ⟨isTest, reads⟩ := isTest_of_isCondition isCondition
  have decides : Decides S.ground L label _ c d := decides_lower isTest reads ready ok
  refine decides.tested fun σ s follows => ?_
  rw [trueIn, follows.holds_eq isCondition]

end Conditions

end Backend6502.Lowering
