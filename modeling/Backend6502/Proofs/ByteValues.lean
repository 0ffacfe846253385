import Backend6502.Proofs.Ground
import Backend6502.Proofs.Meaning

/-!
# Values of byte expressions

The code of an expression leaves its value at the place that code generation says. While a value in
the accumulator or in the scratch cell is still needed, the code for another one leaves it there; it
pushes the accumulator if it has to, and takes it back.
-/

namespace Backend6502.Cpu.State

open Source (Op)

theorem addBinary_withCarry (s : State) (m : UInt8) :
    ((s.addBinary m).a, (s.addBinary m).carry) = Op.add.withCarry s.carry s.a m := by
  cases carry : s.carry <;> simp [addBinary, setA, setNZ, flagBits, Op.withCarry, carry]

theorem subtractBinary_withCarry (s : State) (m : UInt8) :
    ((s.subtractBinary m).a, (s.subtractBinary m).carry) = Op.sub.withCarry s.carry s.a m := by
  cases carry : s.carry <;> simp [subtractBinary, setA, setNZ, flagBits, Op.withCarry, carry]

end Backend6502.Cpu.State

namespace Backend6502.Lowering

open Code (Surroundings)
open Cpu (State Mnemonic)
open Source (Op)

/-- The carry that a pass works with. -/
def carryIn (op : Op) (high carry : Bool) : Bool :=
  if high then carry else op.startCarry carry

/-- The carry is as an operation needs it. -/
def CarryReady (op : Op) (s : State) : Prop :=
  (op = .add → s.carry = false) ∧ (op = .sub → s.carry = true)

theorem withCarry_startCarry (op : Op) (carry : Bool) (a b : UInt8) :
    (op.withCarry (op.startCarry carry) a b).1 = op.onBytes a b := by
  cases op with
  | add =>
    apply UInt8.toNat_inj.mp
    simp [Op.withCarry, Op.onBytes, Op.startCarry]
  | sub =>
    have small := b.toNat_lt
    apply UInt8.toNat_inj.mp
    simp only [Op.withCarry, Op.onBytes, Op.startCarry, UInt8.toNat_ofNat', UInt8.toNat_sub,
      Bool.toNat_true]
    omega
  | _ => rfl

theorem CarryReady.onBytes {op : Op} {s : State} (ready : CarryReady op s) (a b : UInt8) :
    (op.withCarry s.carry a b).1 = op.onBytes a b := by
  have starts : s.carry = op.startCarry s.carry := by
    cases op <;> first | rfl | exact ready.1 rfl | exact ready.2 rfl
  rw [starts, withCarry_startCarry]

namespace Emits

variable {w : Surroundings} {scope : Scope} {c : Context}
variable {place : Place} {m : Mnemonic}

theorem loadPass (readable : place.isReadable scope.symbols = true) :
    Emits w scope c (Lowering.loadA place) fun _ d g =>
      (∃ code, d = { c with
        code
        flags := c.flags.after .lda place
        scratchInUse := c.scratchInUse && !place.isScratch }) ∧
      ∀ s, g s = s.setA ((place.inPass c.high).seen w scope.symbols s) := by
  have fetches (reached : place.isReached scope.symbols = true) :
      Emits w scope c (Lowering.emit .lda place) fun _ d g => (∃ code, d = { c with
        code
        flags := c.flags.after .lda place
        scratchInUse := c.scratchInUse && !place.isScratch }) ∧
      ∀ s, g s = s.setA ((place.inPass c.high).seen w scope.symbols s) := by
    refine (emitAt rfl reached fun _ => rfl).mono fun _ d g ⟨⟨code, same⟩, run⟩ => ⟨⟨code, ?_⟩, ?_⟩
    · rw [same, show isStore .lda = false from rfl, Bool.or_false]
    · intro s
      rw [run]
      cases place <;> first | rfl | cases reached
  cases place with
  | immediate | scratch | cell | indexedX | indexedY => exact fetches readable
  | x | y =>
    refine (emitImplied rfl).mono fun _ d g ⟨⟨code, same⟩, run⟩ => ⟨⟨code, ?_⟩, run⟩
    rw [same, show (!Place.isScratch _) = true from rfl, Bool.and_true]
    rfl
  | nothing | accumulator | label => cases readable

theorem carryPass (op : Op) :
    Emits w scope c (Lowering.prepareCarry op) fun _ d g => (∃ code, d = { c with code }) ∧
      ∀ s : State, s.Alike (g s) ∧ (g s).a = s.a ∧ (g s).carry = carryIn op c.high s.carry := by
  have unprepared (same : ∀ carry, carryIn op c.high carry = carry) :
      (∃ code, c = { c with code }) ∧ ∀ s : State,
        s.Alike (id s) ∧ (id s).a = s.a ∧ (id s).carry = carryIn op c.high s.carry :=
    ⟨⟨_, rfl⟩, fun s => ⟨.refl s, rfl, (same _).symm⟩⟩
  refine .inHigh (.ite (fun low => ?_) fun high => .pure (unprepared fun _ => ?_))
  · have low : c.high = false := by simpa using low
    refine .ite (fun adds => ?_) fun noAdd => .ite (fun subtracts => ?_) fun noSub => ?_
    · refine .bind (emitImplied rfl) fun _ d g ⟨⟨code, same⟩, run⟩ => ?_
      cases same
      cases adds
      refine .pure ⟨⟨code, rfl⟩, fun s => ?_⟩
      rw [Function.comp_apply, id_eq, run, low]
      exact ⟨⟨rfl, rfl, rfl, rfl, rfl⟩, rfl, rfl⟩
    · refine (emitImplied rfl).mono fun _ d g ⟨⟨code, same⟩, run⟩ => ?_
      cases same
      cases subtracts
      refine ⟨⟨code, rfl⟩, fun s => ?_⟩
      rw [run, low]
      exact ⟨⟨rfl, rfl, rfl, rfl, rfl⟩, rfl, rfl⟩
    · refine .pure (unprepared fun carry => ?_)
      rw [low]
      cases op <;> first | rfl | exact absurd rfl noAdd | exact absurd rfl noSub
  · have high : c.high = true := by simpa using high
    rw [high]
    rfl

theorem operatePass {op : Op} (maps : arithMnemonic? op = some m)
    (reached : place.isReached scope.symbols = true) :
    Emits w scope c (Lowering.emit m place) fun _ d g =>
      (∃ code, d = { c with
        code, flags := .accumulator, scratchInUse := c.scratchInUse && !place.isScratch }) ∧
      ∀ s : State, s.decimal = false → s.Alike (g s) ∧ ((g s).a, (g s).carry) =
        op.withCarry s.carry s.a ((place.inPass c.high).seen w scope.symbols s) ∧
          (g s).Shows (g s).a := by
  have kind : m.isStraight = true ∧ indexesX m = true ∧ isStore m = false ∧
      c.flags.after m place = .accumulator := by
    cases op <;> cases maps <;> exact ⟨rfl, rfl, rfl, rfl⟩
  obtain ⟨straight, indexes, keeps, flags⟩ := kind
  refine (emitAt straight reached fun _ => indexes).mono fun _ d g ⟨⟨code, same⟩, run⟩ => ?_
  refine ⟨⟨code, by rw [same, flags, keeps, Bool.or_false]⟩, fun s binary => ?_⟩
  have load : s.load ((place.inPass c.high).reach w scope.symbols s) =
      (place.inPass c.high).seen w scope.symbols s := by
    cases place <;> first | rfl | cases reached
  have notDecimal : ¬s.decimal = true := by rw [binary]; exact Bool.false_ne_true
  rw [run, ← load]
  cases op with
  | add =>
    cases maps
    rw [State.execute, if_neg notDecimal]
    exact ⟨⟨rfl, rfl, rfl, rfl, rfl⟩, s.addBinary_withCarry _, rfl, rfl⟩
  | sub =>
    cases maps
    rw [State.execute, if_neg notDecimal]
    exact ⟨⟨rfl, rfl, rfl, rfl, rfl⟩, s.subtractBinary_withCarry _, rfl, rfl⟩
  | and | or | xor =>
    cases maps
    exact ⟨⟨rfl, rfl, rfl, rfl, rfl⟩, rfl, rfl, rfl⟩
  | _ => cases maps

theorem storePass {register : Place} (isStored : storeOf? register = some m)
    (reached : place.isReached scope.symbols = true)
    (indexes : place.isIndexed = true → indexesX m = true) :
    Emits w scope c (Lowering.emit m place) fun _ d g =>
      (∃ code, d = { c with
        code, flags := c.flags.afterStore (Flags.ofPlace register) place }) ∧
      ∀ s, g s = s.store ((place.inPass c.high).reach w scope.symbols s)
        (register.byte w scope.symbols s) := by
  cases register with
  | accumulator | x | y =>
    cases isStored
    refine (emitAt rfl reached indexes).mono fun _ d g ⟨⟨code, same⟩, run⟩ => ⟨⟨code, ?_⟩, run⟩
    rw [same, show isStore _ = true from rfl, Bool.or_true, Bool.and_true]
    rfl
  | _ => cases isStored

end Emits

/-- The byte at a place has been loaded into the accumulator. -/
structure Loaded (G : Ground) (place : Place) (c d : Context) (g : State → State) : Prop where
  context : ∃ code flags, d = { c with
    code, flags, scratchInUse := c.scratchInUse && !place.isScratch }
  alike : ∀ s : State, s.Alike (g s)
  value : ∀ s, (g s).a = place.byte G.w G.table s
  shows : ∀ s, (g s).Shows (g s).a
  shown : ∀ s, d.flags.Shown G (g s)

/-- A function of the accumulator and of the byte at a place is in the accumulator. -/
structure Operated (G : Ground) (ready : State → Prop) (f : UInt8 → UInt8 → UInt8) (place : Place)
    (c d : Context) (g : State → State) : Prop where
  context : ∃ code, d = { c with
    code, flags := .accumulator, scratchInUse := c.scratchInUse && !place.isScratch }
  run : ∀ s : State, s.decimal = false → ready s →
    s.Alike (g s) ∧ (g s).a = f s.a (place.byte G.w G.table s) ∧ (g s).Shows (g s).a

/-- The value of a register has been written to memory. -/
structure Deposited (G : Ground) (register place : Place) (address : UInt16) (c d : Context)
    (g : State → State) : Prop where
  context : ∃ code flags, d = { c with code, flags }
  wrote : ∀ s, g s = s.write address (register.byte G.w G.table s)
  shown : G.Tracks place → ∀ s, c.flags.Shown G s → d.flags.Shown G (g s)

/-- The value of a register has been moved to the scratch cell, which was free. -/
structure Spilled (G : Ground) (place : Place) (c : Context) (p : Place) (d : Context)
    (g : State → State) : Prop where
  scratch : p = .scratch place.signed
  free : c.scratchInUse = false
  context : ∃ code flags, d = { c with code, flags, scratchInUse := true }
  wrote : ∀ s, g s = s.write G.scratch (place.byte G.w G.table s)
  shown : ∀ s, c.flags.Shown G s → d.flags.Shown G (g s)

namespace Emits

variable {G : Ground} {c : Context}
variable {place : Place} {m : Mnemonic}

theorem loadA (isByte : place.IsByte G) (other : place.isAccumulator = false)
    (low : c.high = false) : Emits G.w G.scope c (loadA place) fun _ => Loaded G place c := by
  have kind : place.isReadable G.table = true ∧ place.isIndexed = false := by
    cases place <;> first | exact ⟨rfl, rfl⟩ | exact isByte.elim | cases other
  refine (loadPass kind.1).mono fun _ d g ⟨⟨code, same⟩, run⟩ => ?_
  have does (s : State) : g s = s.setA (place.byte G.w G.table s) := by
    rw [run, low, Place.inPass_false, Place.seen_eq_byte kind.2]
  cases same
  refine ⟨⟨code, _, rfl⟩, fun s => ?_, fun s => ?_, fun s => ?_, fun s => ?_⟩
  all_goals rw [does]
  · exact ⟨rfl, rfl, rfl, rfl, rfl⟩
  · rfl
  · exact ⟨rfl, rfl⟩
  · exact Flags.shown_load isByte c.flags

theorem prepareCarry (op : Op) (low : c.high = false) :
    Emits G.w G.scope c (prepareCarry op) fun _ d g =>
      (∃ code, d = { c with code }) ∧
        ∀ s : State, s.Alike (g s) ∧ (g s).a = s.a ∧ CarryReady op (g s) := by
  refine (carryPass op).mono fun _ d g ⟨context, ready⟩ => ⟨context, fun s => ?_⟩
  obtain ⟨alike, acc, carry⟩ := ready s
  rw [low] at carry
  refine ⟨alike, acc, ?_, ?_⟩
  · rintro rfl
    exact carry
  · rintro rfl
    exact carry

/-- An instruction that computes a function of the accumulator and of what it addresses. -/
theorem operateBy {ready : State → Prop} {f : UInt8 → UInt8 → UInt8}
    (direct : place.isDirect = true) (low : c.high = false) (straight : m.isStraight = true)
    (keeps : isStore m = false) (flags : c.flags.after m place = .accumulator)
    (does : ∀ (s : State), s.decimal = false → ready s →
      let reached := place.access G.w G.table
      s.Alike (s.execute m reached) ∧ (s.execute m reached).a = f s.a (s.load reached) ∧
        (s.execute m reached).Shows (s.execute m reached).a) :
    Emits G.w G.scope c (Lowering.emit m place) fun _ => Operated G ready f place c := by
  refine (emit straight direct low).mono fun _ d g ⟨⟨code, same⟩, run⟩ => ?_
  cases same
  refine ⟨⟨code, by rw [flags, keeps, Bool.or_false]⟩, fun s binary ready => ?_⟩
  rw [run, ← Place.load_access direct]
  exact does s binary ready

/-- The instruction of an operation applies it to the accumulator. -/
theorem operate {op : Op} (maps : arithMnemonic? op = some m) (direct : place.isDirect = true)
    (low : c.high = false) : Emits G.w G.scope c (Lowering.emit m place) fun _ =>
      Operated G (CarryReady op) op.onBytes place c := by
  have kind : place.isReached G.table = true ∧ place.isIndexed = false := by
    cases place <;> first | exact ⟨rfl, rfl⟩ | cases direct
  refine (operatePass maps kind.1).mono fun _ d g ⟨context, run⟩ =>
    ⟨context, fun s binary ready => ?_⟩
  obtain ⟨alike, outcome, shows⟩ := run s binary
  rw [low, Place.inPass_false, Place.seen_eq_byte kind.2] at outcome
  exact ⟨alike, (congrArg Prod.fst outcome).trans (ready.onBytes _ _), shows⟩

theorem unneeded {α : Type} {k : Unit → Gen α} {Q : Report α}
    (rest : Emits G.w G.scope c (k ()) Q) : Emits G.w G.scope c (save false >>= k) Q := rest

theorem deposit {register : Place} {address : UInt16} (isStored : storeOf? register = some m)
    (reached : place.access G.w G.table = .address address) :
    Emits G.w G.scope c (Lowering.emit m place) fun _ => Deposited G register place address c := by
  have kind : place.isReached G.table = true ∧ ¬place.isIndexed = true ∧
      place.inPass c.high = place ∧ ∀ s, place.reach G.w G.table s = .address address := by
    cases place <;> first | exact ⟨rfl, Bool.false_ne_true, rfl, fun _ => reached⟩ | cases reached
  obtain ⟨addressed, plain, same, reaches⟩ := kind
  refine (storePass isStored addressed fun indexed => absurd indexed plain).mono ?_
  rintro _ d g ⟨⟨code, rfl⟩, run⟩
  have wrote (s : State) : g s = s.write address (register.byte G.w G.table s) := by
    rw [run, same, reaches]
    rfl
  refine ⟨⟨code, _, rfl⟩, wrote, fun tracks s shown => ?_⟩
  rw [wrote]
  refine shown.afterStore (fun source => ?_) tracks reached
  cases register <;> first | exact source | cases isStored

/-- The value of a register moves to the scratch cell, which has to be free. -/
theorem spill (register : place.isRegister = true) :
    Emits G.w G.scope c (spill place) (Spilled G place c) := by
  refine .get (.check fun free => ?_)
  cases isStored : storeOf? place with
  | none =>
    cases place with
    | accumulator | x | y => cases isStored
    | _ => cases register
  | some m =>
    refine .bind (deposit isStored rfl) fun _ d g deposited => ?_
    obtain ⟨code, flags, rfl⟩ := deposited.context
    exact .modify rfl (.pure ⟨rfl, eq_false_of_ne_true free, ⟨code, flags, rfl⟩,
      deposited.wrote, deposited.shown trivial⟩)

theorem keepingA {w : Surroundings} {scope : Scope} {step : Gen Unit}
    {Q : Report Unit} (free : c.accInUse = false)
    (emits : Emits w scope c step Q) : Emits w scope c (keepingA step) Q := by
  refine .accInUse ?_
  rw [free, if_neg Bool.false_ne_true]
  exact .bind emits fun _ d g holds => .pure holds

end Emits

end Backend6502.Lowering

namespace Backend6502.Lowering

open Cpu (State Mnemonic)
open Source (Op Expr)

variable {place l r : Place} {c d e : Context} {op : Op} {g : State → State}

/-- What the code of a value leaves as it is. -/
structure Kept (c d : Context) : Prop where
  high : d.high = c.high
  exits : d.exits = c.exits
  deferred : d.deferred = c.deferred
  forCount : d.forCount = c.forCount
  ifCount : d.ifCount = c.ifCount
  whileCount : d.whileCount = c.whileCount

theorem Kept.trans (first : Kept c d) (second : Kept d e) : Kept c e :=
  ⟨second.high.trans first.high, second.exits.trans first.exits,
    second.deferred.trans first.deferred, second.forCount.trans first.forCount,
    second.ifCount.trans first.ifCount, second.whileCount.trans first.whileCount⟩

/-- The values that were in use are where they were. -/
structure Undisturbed (G : Ground) (c d : Context) (g : State → State) : Prop where
  kept : Kept c d
  acc : d.accInUse = c.accInUse
  near : ∀ s t, Near G s t → Near G s (g t)
  shown : ∀ s t, Near G s t → c.flags.Shown G t → d.flags.Shown G (g t)
  sameA : ∀ s t, Near G s t → c.accInUse = true → (g t).a = t.a
  sameScratch : ∀ s t, Near G s t → c.scratchInUse = true →
    (g t).read G.scratch = t.read G.scratch

/-- A byte has been left at a place, and the values that were in use are where they were. -/
structure Leaves (G : Ground) (b : State → UInt8) (c : Context) (place : Place) (d : Context)
    (g : State → State) : Prop extends Undisturbed G c d g where
  isByte : place.IsByte G
  notAcc : c.accInUse = true → place.isAccumulator = false
  scratch : d.scratchInUse = (c.scratchInUse || place.isScratch)
  notScratch : c.scratchInUse = true → place.isScratch = false
  value : ∀ s t, Near G s t → place.byte G.w G.table (g t) = b s

/-- The step computes a byte of the state at the start, whatever is in use. -/
def Computes (G : Ground) (m : Gen Place) (b : State → UInt8) : Prop :=
  ∀ c, c.high = false → Emits G.w G.scope c m (Leaves G b c)

/--
Two bytes have been left at two places, of which at most one is the accumulator and one scratch.
-/
structure LeavesBoth (G : Ground) (bl br : State → UInt8) (c : Context) (l r : Place)
    (d : Context) (g : State → State) : Prop extends Undisturbed G c d g where
  isByteL : l.IsByte G
  isByteR : r.IsByte G
  notAcc : c.accInUse = true → l.isAccumulator = false ∧ r.isAccumulator = false
  oneAcc : l.isAccumulator = false ∨ r.isAccumulator = false
  scratch : d.scratchInUse = (c.scratchInUse || (l.isScratch || r.isScratch))
  notScratch : c.scratchInUse = true → l.isScratch = false ∧ r.isScratch = false
  oneScratch : l.isScratch = false ∨ r.isScratch = false
  valueL : ∀ s t, Near G s t → l.byte G.w G.table (g t) = bl s
  valueR : ∀ s t, Near G s t → r.byte G.w G.table (g t) = br s

theorem onBytes_comm (commutes : isCommutative op = true) (a b : UInt8) :
    op.onBytes a b = op.onBytes b a := by
  cases op with
  | add => exact UInt8.add_comm a b
  | and => exact UInt8.and_comm a b
  | or => exact UInt8.or_comm a b
  | xor => exact UInt8.xor_comm a b
  | _ => cases commutes

theorem Place.isRegister_of_isAccumulator (inside : place.isAccumulator = true) :
    place.isRegister = true := by
  cases place <;> first | rfl | cases inside

theorem Place.isAccumulator_of_isRegister (other : place.isRegister = false) :
    place.isAccumulator = false := by
  cases place <;> first | rfl | cases other

theorem Place.isScratch_of_isAccumulator (inside : place.isAccumulator = true) :
    place.isScratch = false := by
  cases place <;> first | rfl | cases inside

/-- Two bytes have been left that an operation makes the same of as of these. -/
def Reordered (G : Ground) (op : Op) (bl br : State → UInt8) (c : Context) (p : Place × Place)
    (d : Context) (g : State → State) : Prop :=
  ∃ bl' br' : State → UInt8, (∀ s, op.onBytes (bl' s) (br' s) = op.onBytes (bl s) (br s)) ∧
    LeavesBoth G bl' br' c p.1 p.2 d g

namespace LeavesBoth

variable {op : Op}
variable {G : Ground} {bl br : State → UInt8} {c d : Context} {l r : Place} {g : State → State}

section

variable (both : LeavesBoth G bl br c l r d g)

include both

theorem swap : LeavesBoth G br bl c r l d g where
  toUndisturbed := both.toUndisturbed
  isByteL := both.isByteR
  isByteR := both.isByteL
  notAcc inUse := (both.notAcc inUse).symm
  oneAcc := both.oneAcc.symm
  scratch := by rw [both.scratch, Bool.or_comm l.isScratch]
  notScratch inUse := (both.notScratch inUse).symm
  oneScratch := both.oneScratch.symm
  valueL := both.valueR
  valueR := both.valueL

/-- Once both values are read, the scratch cell is as free as it was before. -/
theorem freed : ((d.scratchInUse && !l.isScratch) && !r.isScratch) = c.scratchInUse := by
  rw [both.scratch]
  cases outer : c.scratchInUse with
  | false => cases l.isScratch <;> cases r.isScratch <;> rfl
  | true =>
    obtain ⟨notL, notR⟩ := both.notScratch outer
    rw [notL, notR]
    rfl

/-- The right value may be moved from a register to the scratch cell. -/
theorem spillR (register : r.isRegister = true) : Emits G.w G.scope d (spill r) fun p e h =>
      p.isRegister = false ∧ LeavesBoth G bl br c l p e (h ∘ g) := by
  refine (Emits.spill register).mono fun p e h spilled => ?_
  obtain ⟨code, flags, same⟩ := spilled.context
  cases spilled.scratch
  have free : (c.scratchInUse || (l.isScratch || r.isScratch)) = false :=
    both.scratch.symm.trans spilled.free
  have outer : c.scratchInUse = false := (Bool.or_eq_false_iff.mp free).1
  have notL : l.isScratch = false := (Bool.or_eq_false_iff.mp (Bool.or_eq_false_iff.mp free).2).1
  have noScratch (inUse : c.scratchInUse = true) : False :=
    Bool.false_ne_true (outer.symm.trans inUse)
  cases same
  refine ⟨rfl, {
    isByteL := both.isByteL
    isByteR := trivial
    kept := both.kept.trans ⟨rfl, rfl, rfl, rfl, rfl, rfl⟩
    acc := both.acc
    notAcc := fun inUse => ⟨(both.notAcc inUse).1, rfl⟩
    oneAcc := .inr rfl
    scratch := by simp [Place.isScratch]
    notScratch := fun inUse => (noScratch inUse).elim
    oneScratch := .inl notL
    near := ?_
    shown := fun s t near shown => spilled.shown (g t) (both.shown s t near shown)
    valueL := ?_
    valueR := ?_
    sameA := ?_
    sameScratch := fun s t near inUse => (noScratch inUse).elim }⟩
  · intro s t near
    rw [Function.comp_apply, spilled.wrote]
    exact (both.near s t near).aside _ (.inl rfl)
  · intro s t near inUse
    rw [Function.comp_apply, spilled.wrote]
    exact both.sameA s t near inUse
  · intro s t near
    rw [Function.comp_apply, spilled.wrote,
      Place.byte_write _ (both.isByteL.access_ne_scratch notL), both.valueL s t near]
  · intro s t near
    rw [Function.comp_apply, spilled.wrote, both.valueR s t near]
    exact (State.read_write _ _ _ _).trans (if_pos rfl)

theorem reordered : Reordered G op bl br c (l, r) d g :=
  ⟨bl, br, fun _ => rfl, both⟩

theorem swapped (commutes : isCommutative op = true) : Reordered G op bl br c (r, l) d g :=
  ⟨br, bl, fun s => onBytes_comm commutes (br s) (bl s), both.swap⟩

/-- After that the right value is not in the accumulator. -/
theorem freeAccumulator : Emits G.w G.scope d (freeAccumulator op l r) fun p e h =>
      p.2.isAccumulator = false ∧ Reordered G op bl br c p e (h ∘ g) := by
  refine .ite (fun inside => .ite (fun commutes => ?_) fun _ => ?_) fun outside => ?_
  · have notL : l.isAccumulator = false := both.oneAcc.resolve_right (by rw [inside]; simp)
    exact .pure ⟨notL, both.swapped commutes⟩
  · have register : r.isRegister = true := Place.isRegister_of_isAccumulator inside
    refine .bind (both.spillR register) fun p e h ⟨moved, after⟩ => ?_
    exact .pure ⟨Place.isAccumulator_of_isRegister moved, after.reordered⟩
  · exact .pure ⟨eq_false_of_ne_true outside, both.reordered⟩

/-- After that the right value is in no register at all. -/
theorem freeIndexRegister (free : r.isAccumulator = false) :
    Emits G.w G.scope d (freeIndexRegister op l r) fun p e h =>
      p.2.isRegister = false ∧ Reordered G op bl br c p e (h ∘ g) := by
  refine .ite (fun inside => .ite (fun commutes => ?_) fun _ => ?_) fun outside => ?_
  · obtain ⟨commutes, notL⟩ := Bool.and_eq_true_iff.mp commutes
    exact .pure ⟨by simpa using notL, both.swapped commutes⟩
  · have register : r.isRegister = true := by
      cases r <;> first | rfl | cases inside
    exact .bind (both.spillR register) fun p e h ⟨moved, after⟩ => .pure ⟨moved, after.reordered⟩
  · have other : r.isRegister = false := by
      cases r with
      | accumulator => cases free
      | x | y => exact absurd rfl outside
      | _ => rfl
    exact .pure ⟨other, both.reordered⟩

end

end LeavesBoth

section Values

variable {G : Ground} {b bl br : State → UInt8}
variable {m : Mnemonic} {lhs rhs : Operand} {f : UInt8 → UInt8 → UInt8} {work : Gen Unit}

/-- The code of a second value keeps the first one where it is, if it is known to be in use. -/
theorem Leaves.keeps {other : Place} {s t : State}
    (leaves : Leaves G br c other d g) (near : Near G s t) (isByte : place.IsByte G)
    (acc : place.isAccumulator = true → c.accInUse = true)
    (scratch : place.isScratch = true → c.scratchInUse = true) :
    place.byte G.w G.table (g t) = place.byte G.w G.table t := by
  have still (notAcc : place.isAccumulator = false) (notScratch : place.isScratch = false) :
      place.byte G.w G.table (g t) = place.byte G.w G.table t :=
    ((leaves.near s t near).byte_eq isByte notAcc notScratch).trans
      (near.byte_eq isByte notAcc notScratch).symm
  cases place with
  | accumulator => exact leaves.sameA s t near (acc rfl)
  | scratch => exact leaves.sameScratch s t near (scratch rfl)
  | _ => exact still rfl rfl

theorem Leaves.both {m : Gen Place}
    (first : Leaves G bl c l d g) (second : Computes G m br) (low : c.high = false)
    (inUse : Bool) (needed : inUse = (c.accInUse || l.isAccumulator)) :
    Emits G.w G.scope { d with accInUse := inUse }
      (do let r ← m
          setAccInUse c.accInUse
          return (l, r)) fun p e h => LeavesBoth G bl br c p.1 p.2 e (h ∘ g) := by
  have lowHere : d.high = false := first.kept.high.trans low
  refine .bind (second _ lowHere) fun r e h leaves => .modify rfl (.pure ?_)
  have accL (inside : l.isAccumulator = true) : inUse = true := by
    rw [needed, inside, Bool.or_true]
  have accC (outer : c.accInUse = true) : inUse = true := by
    rw [needed, outer, Bool.true_or]
  have scratchL (inside : l.isScratch = true) : d.scratchInUse = true := by
    rw [first.scratch, inside, Bool.or_true]
  have scratchC (outer : c.scratchInUse = true) : d.scratchInUse = true := by
    rw [first.scratch, outer, Bool.true_or]
  have keptR : Kept d e := ⟨leaves.kept.high, leaves.kept.exits, leaves.kept.deferred,
    leaves.kept.forCount, leaves.kept.ifCount, leaves.kept.whileCount⟩
  exact {
    isByteL := first.isByte
    isByteR := leaves.isByte
    kept := first.kept.trans (keptR.trans ⟨rfl, rfl, rfl, rfl, rfl, rfl⟩)
    acc := rfl
    notAcc := fun outer => ⟨first.notAcc outer, leaves.notAcc (accC outer)⟩
    oneAcc := by
      cases inside : l.isAccumulator with
      | false => exact .inl rfl
      | true => exact .inr (leaves.notAcc (accL inside))
    scratch := by
      rw [← Bool.or_assoc, ← first.scratch]
      exact leaves.scratch
    notScratch := fun outer => ⟨first.notScratch outer, leaves.notScratch (scratchC outer)⟩
    oneScratch := by
      cases inside : l.isScratch with
      | false => exact .inl rfl
      | true => exact .inr (leaves.notScratch (scratchL inside))
    near := fun s t start => leaves.near s (g t) (first.near s t start)
    shown := fun s t start shown =>
      leaves.shown s (g t) (first.near s t start) (first.shown s t start shown)
    valueL := fun s t start =>
      (leaves.keeps (first.near s t start) first.isByte accL scratchL).trans (first.value s t start)
    valueR := fun s t start => leaves.value s (g t) (first.near s t start)
    sameA := fun s t start outer =>
      (leaves.sameA s (g t) (first.near s t start) (accC outer)).trans (first.sameA s t start outer)
    sameScratch := fun s t start outer =>
      (leaves.sameScratch s (g t) (first.near s t start) (scratchC outer)).trans
        (first.sameScratch s t start outer) }

theorem emits_bothValues (first : Computes G lhs.value bl) (second : Computes G rhs.value br)
    (low : c.high = false) : Emits G.w G.scope c (bothValues lhs rhs) fun p d g =>
      LeavesBoth G bl br c p.1 p.2 d g := by
  refine .accInUse (.bind (first c low) fun l d g leaves => ?_)
  refine .ite (fun inside => .modify rfl ?_) fun outside => ?_
  · exact leaves.both second low true (by rw [inside, Bool.or_true])
  · have same : c.accInUse = (c.accInUse || l.isAccumulator) := by
      rw [eq_false_of_ne_true outside, Bool.or_false]
    have unchanged : { d with accInUse := c.accInUse } = d := by rw [← leaves.acc]
    have emits := leaves.both second low c.accInUse same
    rw [unchanged] at emits
    exact emits

/-- A byte that stands where it is needs no code. -/
theorem Leaves.unmoved (isByte : place.IsByte G) (notAcc : place.isAccumulator = false)
    (notScratch : place.isScratch = false)
    (value : ∀ s, G.starts s → place.byte G.w G.table s = b s) : Leaves G b c place c id where
  isByte := isByte
  kept := ⟨rfl, rfl, rfl, rfl, rfl, rfl⟩
  acc := rfl
  notAcc _ := notAcc
  scratch := by rw [notScratch, Bool.or_false]
  notScratch _ := notScratch
  near _ _ near := near
  shown _ _ _ shown := shown
  value s _ near := (near.byte_eq isByte notAcc notScratch).trans (value s near.starts)
  sameA _ _ _ _ := rfl
  sameScratch _ _ _ _ := rfl

theorem computes_int (n : Int64) : Computes G (Operand.int n).value fun _ => lowByte n :=
  fun _ _ => .pure (.unmoved trivial rfl rfl fun _ _ => rfl)

/-- The step makes a function of the accumulator and of the byte at a place. -/
def Works (G : Ground) (f : UInt8 → UInt8 → UInt8) (r : Place) (work : Gen Unit) : Prop :=
  ∀ c, c.high = false → Emits G.w G.scope c work fun _ => Operated G (fun _ => True) f r c

theorem works_arith (maps : arithMnemonic? op = some m) (isByte : r.IsByte G)
    (addressed : r.isRegister = false) : Works G op.onBytes r (do prepareCarry op; emit m r) := by
  intro c low
  have direct : r.isDirect = true := by
    refine isByte.isDirect ?_
    cases r <;> first | rfl | cases addressed
  refine .bind (.prepareCarry op low) fun _ d g ⟨⟨code, same⟩, carry⟩ => ?_
  cases same
  refine (Emits.operate maps direct (by exact low)).mono fun _ e h operated =>
    ⟨?_, fun s binary _ => ?_⟩
  · obtain ⟨others, same⟩ := operated.context
    exact ⟨others, same⟩
  · obtain ⟨alike, a, ready⟩ := carry s
    obtain ⟨further, value, shows⟩ := operated.run (g s) (alike.decimal.trans binary) ready
    refine ⟨alike.trans further, ?_, shows⟩
    rw [Function.comp_apply, value, a,
      Place.byte_alike alike (Place.isAccumulator_of_isRegister addressed)]

/-- Without a push, the outcome is in the accumulator. -/
theorem LeavesBoth.compute {h : State → State}
    (both : LeavesBoth G bl br c l r d g) (works : Works G f r work) (arithmetic : G.arithmetic)
    (outside : r.isAccumulator = false) (low : c.high = false) (free : c.accInUse = false)
    (signed : Bool) (context : ∃ code flags, e = { d with
      code, flags, scratchInUse := d.scratchInUse && !l.isScratch })
    (loaded : ∀ s : State, s.Alike (h s) ∧ (h s).a = l.byte G.w G.table s) :
    Emits G.w G.scope e (do work; restore false signed) fun p e' h' =>
      Leaves G (fun s => f (bl s) (br s)) c p e' (h' ∘ h ∘ g) := by
  obtain ⟨code, flags, rfl⟩ := context
  have lowHere : d.high = false := both.kept.high.trans low
  refine .bind (works _ (by exact lowHere)) fun _ e' h' operated => .pure ?_
  obtain ⟨others, rfl⟩ := operated.context
  have run (s t : State) (near : Near G s t) :
      (g t).Alike (h' (h (g t))) ∧ (h' (h (g t))).a = f (bl s) (br s) ∧
        (h' (h (g t))).Shows (h' (h (g t))).a := by
    obtain ⟨alike, a⟩ := loaded (g t)
    have binary := (both.near s t near).binary arithmetic
    obtain ⟨further, value, shows⟩ := operated.run (h (g t)) (alike.decimal.trans binary) trivial
    refine ⟨alike.trans further, ?_, shows⟩
    rw [value, a, both.valueL s t near, Place.byte_alike alike outside, both.valueR s t near]
  have noAcc (outer : c.accInUse = true) : False :=
    Bool.false_ne_true (free.symm.trans outer)
  exact {
    isByte := trivial
    kept := both.kept.trans ⟨rfl, rfl, rfl, rfl, rfl, rfl⟩
    acc := both.acc
    notAcc := fun outer => (noAcc outer).elim
    scratch := both.freed.trans (Bool.or_false _).symm
    notScratch := fun _ => rfl
    near := fun s t near => (both.near s t near).alike (run s t near).1
    shown := fun s t near _ => (run s t near).2.2
    value := fun s t near => (run s t near).2.1
    sameA := fun s t near outer => (noAcc outer).elim
    sameScratch := fun s t near outer =>
      ((run s t near).1.read G.scratch).trans (both.sameScratch s t near outer) }

/-- The accumulator comes back, and the new value goes to the scratch cell. -/
theorem emits_restore (signed : Bool) (low : c.high = false) :
    Emits G.w G.scope c (restore true signed) fun p d g =>
      p = .scratch signed ∧ c.scratchInUse = false ∧
        (∃ code, d = { c with code, flags := .accumulator, scratchInUse := true }) ∧
          ∀ s : State, g s =
            (s.write G.scratch s.a).pull.2.setA (s.write G.scratch s.a).pull.1 := by
  refine .get (.check fun free => ?_)
  refine .bind (.emit rfl rfl low) fun _ d g ⟨⟨code, same⟩, run⟩ => ?_
  cases same
  refine .modify rfl (.bind (.emitImplied rfl) fun _ e h ⟨⟨others, same⟩, back⟩ => ?_)
  cases same
  refine .pure ⟨rfl, eq_false_of_ne_true free, ⟨others, rfl⟩, fun s => ?_⟩
  change h (g s) = _
  rw [back, run]
  rfl

section

variable (both : LeavesBoth G bl br c l r d g)

include both

/-- With a push, the outcome is in the scratch cell and the accumulator is back. -/
theorem LeavesBoth.computePushed (works : Works G f r work) (arithmetic : G.arithmetic)
    (low : c.high = false) (inUse : c.accInUse = true) (signed : Bool) :
    Emits G.w G.scope d (do emitImplied .pha; loadA l; work; restore true signed) fun p e h =>
      Leaves G (fun s => f (bl s) (br s)) c p e (h ∘ g) := by
  have lowHere : d.high = false := both.kept.high.trans low
  obtain ⟨notL, notR⟩ := both.notAcc inUse
  refine .bind (.emitImplied rfl) fun _ e₁ h₁ saved => ?_
  obtain ⟨⟨code₁, rfl⟩, pushed⟩ := saved
  refine .bind (.loadA both.isByteL notL (by exact lowHere)) fun _ e₂ h₂ loaded => ?_
  obtain ⟨code₂, flags₂, rfl⟩ := loaded.context
  refine .bind (works _ (by exact lowHere)) fun _ e₃ h₃ operated => ?_
  obtain ⟨code₃, rfl⟩ := operated.context
  refine (emits_restore signed (by exact lowHere)).mono fun p e h restored => ?_
  obtain ⟨rfl, free, ⟨code, rfl⟩, back⟩ := restored
  have run (s t : State) (near : Near G s t) : ∃ u : State,
      ((g t).push (g t).a).Alike u ∧ u.a = f (bl s) (br s) ∧
        h (h₃ (h₂ (h₁ (g t)))) = (u.write G.scratch u.a).pull.2.setA
          (u.write G.scratch u.a).pull.1 := by
    have here := both.near s t near
    have begun : h₁ (g t) = (g t).push (g t).a := pushed (g t)
    have alike := loaded.alike ((g t).push (g t).a)
    have binary : ((g t).push (g t).a).decimal = false := here.binary arithmetic
    obtain ⟨further, value, -⟩ := operated.run _ (alike.decimal.trans binary) trivial
    refine ⟨_, alike.trans further, ?_, by rw [begun]; exact back _⟩
    rw [value, loaded.value, both.isByteL.byte_push arithmetic here, both.valueL s t near,
      Place.byte_alike alike notR, both.isByteR.byte_push arithmetic here, both.valueR s t near]
  have outer : c.scratchInUse = false := by
    rw [← both.freed]
    exact free
  have noScratch (inUse : c.scratchInUse = true) : False :=
    Bool.false_ne_true (outer.symm.trans inUse)
  have ends (s t : State) (near : Near G s t) :
      (((g t).write s.stackTop (g t).a).write G.scratch (f (bl s) (br s))).Alike
          (h (h₃ (h₂ (h₁ (g t))))) ∧
        (h (h₃ (h₂ (h₁ (g t))))).a = (g t).a ∧
          (h (h₃ (h₂ (h₁ (g t))))).Shows (h (h₃ (h₂ (h₁ (g t))))).a := by
    obtain ⟨u, alike, value, same⟩ := run s t near
    have apart : G.scratch ≠ (g t).stackTop := ((g t).stackTop_ne_zeroPage _).symm
    obtain ⟨restored, a⟩ := State.pull_after_push alike apart
    rw [same, ← (both.near s t near).stackTop, ← value]
    exact ⟨restored, a, rfl, rfl⟩
  exact {
    isByte := trivial
    kept := both.kept.trans ⟨rfl, rfl, rfl, rfl, rfl, rfl⟩
    acc := both.acc
    notAcc := fun _ => rfl
    scratch := by rw [outer]; rfl
    notScratch := fun inUse => (noScratch inUse).elim
    near := fun s t near => (((both.near s t near).aside _ (.inr ⟨arithmetic, rfl⟩)).aside _
      (.inl rfl)).alike (ends s t near).1
    shown := fun s t near _ => (ends s t near).2.2
    value := fun s t near =>
      ((ends s t near).1.read G.scratch).trans ((State.read_write _ _ _ _).trans (if_pos rfl))
    sameA := fun s t near inUse => (ends s t near).2.1.trans (both.sameA s t near inUse)
    sameScratch := fun s t near inUse => (noScratch inUse).elim }

/--
The left value is worked on in the accumulator; what was there before is kept if it is needed.
-/
theorem LeavesBoth.inAccumulator (works : Works G f r work) (arithmetic : G.arithmetic)
    (outside : r.isAccumulator = false) (low : c.high = false) (signed : Bool) :
    if l.isAccumulator = true then
      Emits G.w G.scope d (do work; restore false signed) fun p e h =>
        Leaves G (fun s => f (bl s) (br s)) c p e (h ∘ g)
    else
      Emits G.w G.scope d (do save c.accInUse; loadA l; work; restore c.accInUse signed)
        fun p e h => Leaves G (fun s => f (bl s) (br s)) c p e (h ∘ g) := by
  split
  · next inside =>
    have free : c.accInUse = false := by
      cases inUse : c.accInUse with
      | false => rfl
      | true => exact absurd ((both.notAcc inUse).1.symm.trans inside) (by decide)
    refine both.compute (h := id) works arithmetic outside low free _ ⟨d.code, d.flags, ?_⟩
      fun s => ⟨.refl s, ?_⟩
    · rw [Place.isScratch_of_isAccumulator inside, Bool.not_false, Bool.and_true]
    · cases l <;> first | rfl | cases inside
  · next other =>
    have notL : l.isAccumulator = false := eq_false_of_ne_true other
    have lowHere : d.high = false := both.kept.high.trans low
    cases inUse : c.accInUse with
    | false =>
      refine .unneeded (.bind (.loadA both.isByteL notL lowHere) fun _ e h loaded => ?_)
      exact both.compute works arithmetic outside low inUse _ loaded.context fun s =>
        ⟨loaded.alike s, loaded.value s⟩
    | true => exact both.computePushed works arithmetic low inUse _

theorem LeavesBoth.apply (maps : arithMnemonic? op = some m)
    (arithmetic : G.arithmetic) (addressed : r.isRegister = false) (low : c.high = false) :
    Emits G.w G.scope d (apply op m l r) fun p e h =>
      Leaves G (fun s => op.onBytes (bl s) (br s)) c p e (h ∘ g) := by
  have emits := both.inAccumulator (works_arith maps both.isByteR addressed) arithmetic
    (Place.isAccumulator_of_isRegister addressed) low (l.signed || r.signed)
  simp only [bind_assoc] at emits
  unfold Lowering.apply
  refine .accInUse ?_
  rw [both.acc]
  cases inside : l.isAccumulator with
  | true =>
    rw [if_pos inside] at emits
    rw [Bool.not_true, Bool.and_false, if_neg Bool.false_ne_true]
    exact emits
  | false =>
    rw [if_neg (by rw [inside]; exact Bool.false_ne_true)] at emits
    rw [Bool.not_false, if_pos rfl, Bool.and_true]
    exact .get (.check fun _ => emits)

end

/-- Constants are combined at full width, which is the same for their lowest bytes. -/
theorem lowByte_fold {a b n : Int64} (isOp : op.isByteOp = true) (folded : fold op a b = .ok n) :
    lowByte n = op.onBytes (lowByte a) (lowByte b) := by
  cases op with
  | add | sub | and | or | xor =>
    cases folded
    simp [lowByte, Op.onBytes]
  | _ => cases isOp

theorem instructionOf_eq (isOp : op.isByteOp = true) :
    ∃ m, arithMnemonic? op = some m ∧ instructionOf op = pure m := by
  cases op with
  | add | sub | and | or | xor => exact ⟨_, rfl, rfl⟩
  | _ => cases isOp

theorem Emits.checkHighArith {α : Type} {lhs rhs : Expr} {k : Unit → Gen α}
    {Q : Report α} (low : c.high = false)
    (rest : Emits G.w G.scope c (k ()) Q) :
    Emits G.w G.scope c (checkHighArith op lhs rhs >>= k) Q := by
  refine .bind (P := fun _ d g => d = c ∧ g = id) ?_ fun _ d g ⟨same, nothing⟩ => ?_
  · refine .inHigh ?_
    rw [low, if_neg Bool.false_ne_true]
    exact .pure ⟨rfl, rfl⟩
  · cases same
    cases nothing
    exact rest

/-- An operation on two values computes what it says. -/
theorem computes_arith (arithmetic : G.arithmetic) (isOp : op.isByteOp = true)
    (first : Computes G lhs.value bl) (second : Computes G rhs.value br) :
    Computes G (arith op lhs rhs) fun s => op.onBytes (bl s) (br s) := by
  intro c low
  refine .checkHighArith low (.bind (emits_bothValues first second low) ?_)
  rintro ⟨l, r⟩ d g both
  dsimp only at both ⊢
  split
  · next a b =>
    cases folded : fold op a b with
    | error problem => exact .fail
    | ok n =>
      refine .pure ⟨both.toUndisturbed, trivial, fun _ => rfl, both.scratch, fun _ => rfl,
        fun s t near => ?_⟩
      rw [← both.valueL s t near, ← both.valueR s t near]
      exact lowByte_fold isOp folded
  · obtain ⟨m, maps, same⟩ := instructionOf_eq isOp
    rw [same, pure_bind]
    refine .check fun _ => ?_
    refine .bind both.freeAccumulator ?_
    rintro ⟨l, r⟩ d' g' ⟨notAcc, bl', br', value', both'⟩
    refine .bind (both'.freeIndexRegister notAcc) ?_
    rintro ⟨l, r⟩ d'' g'' ⟨addressed, bl'', br'', value'', both''⟩
    simp only [← value', ← value'']
    exact both''.apply maps arithmetic addressed low

end Values

end Backend6502.Lowering
