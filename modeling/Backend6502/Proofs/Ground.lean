import Backend6502.Lowering.Variable
import Backend6502.Proofs.ByteAccess
import Backend6502.Proofs.SymbolTables

/-!
# The ground that code works on

Code that works on values reads bytes of variables. On the way it writes to the scratch cell, and to
the byte at the top of the stack where it pushes the accumulator. As long as the bytes that it reads
lie apart from those two, it finds them as they were when it started, and what code generation
believes of the sign and zero flags is true.
-/

namespace Backend6502.Cpu.State

/-- The sign and zero flags show this byte. -/
def Shows (s : State) (b : UInt8) : Prop :=
  s.zero = (b == 0) ∧ s.negative = isNegative b

/-- The states differ in nothing but the accumulator and the flags. -/
structure Alike (s t : State) : Prop where
  x : t.x = s.x
  y : t.y = s.y
  sp : t.sp = s.sp
  decimal : t.decimal = s.decimal
  memory : t.memory = s.memory

theorem Alike.refl (s : State) : Alike s s :=
  ⟨rfl, rfl, rfl, rfl, rfl⟩

theorem Alike.symm {s t : State} (alike : Alike s t) : Alike t s :=
  ⟨alike.x.symm, alike.y.symm, alike.sp.symm, alike.decimal.symm, alike.memory.symm⟩

theorem Alike.trans {s t u : State} (first : Alike s t) (second : Alike t u) : Alike s u :=
  ⟨second.x.trans first.x, second.y.trans first.y, second.sp.trans first.sp,
    second.decimal.trans first.decimal, second.memory.trans first.memory⟩

theorem Alike.read {s t : State} (alike : Alike s t) (address : UInt16) :
    t.read address = s.read address := by
  rw [State.read, State.read, alike.memory]

theorem Alike.store {s t : State} (alike : Alike s t) (place : Access) (b : UInt8) :
    (s.store place b).Alike (t.store place b) := by
  obtain ⟨x, y, sp, decimal, memory⟩ := alike
  cases place with
  | address a => exact ⟨x, y, sp, decimal, congrArg (·.write a b) memory⟩
  | _ => exact ⟨x, y, sp, decimal, memory⟩

theorem carry_store (s : State) (place : Access) (b : UInt8) :
    (s.store place b).carry = s.carry := by
  cases place <;> rfl

theorem read_write (s : State) (address other : UInt16) (b : UInt8) :
    (s.write address b).read other = if address = other then b else s.read other :=
  Memory.read_write s.memory address other b

theorem stackTop_ne_zeroPage (s : State) (b : UInt8) : s.stackTop ≠ b.toUInt16 := by
  intro same
  have value : (s.stackTop).toNat = b.toNat := by
    rw [same, UInt8.toNat_toUInt16]
  have high : 256 ≤ (s.stackTop).toNat := by
    rw [stackTop, UInt16.toNat_or]
    exact Nat.left_le_or
  have low := b.toNat_lt
  omega

/--
After a push, a store elsewhere and a pull, the accumulator is back and both bytes are written.
-/
theorem pull_after_push {s t : State} {address : UInt16} (alike : (s.push s.a).Alike t)
    (apart : address ≠ s.stackTop) :
    ((s.write s.stackTop s.a).write address t.a).Alike
        ((t.write address t.a).pull.2.setA (t.write address t.a).pull.1) ∧
      (t.write address t.a).pull.1 = s.a := by
  have sp : (t.write address t.a).drop.sp = s.sp := by
    change t.sp + 1 = s.sp
    rw [alike.sp]
    exact UInt8.sub_add_cancel s.sp 1
  have memory : t.memory = s.memory.write s.stackTop s.a := alike.memory
  refine ⟨⟨alike.x, alike.y, sp, alike.decimal, ?_⟩, ?_⟩
  · change t.memory.write address t.a = (s.memory.write s.stackTop s.a).write address t.a
    rw [memory]
  · have top : (t.write address t.a).drop.stackTop = s.stackTop := by
      rw [stackTop, sp]
      rfl
    rw [pull, top]
    change (t.memory.write address t.a).read s.stackTop = s.a
    rw [memory, Memory.read_write_of_ne _ _ _ _ apart, Memory.read_write_self]

end Backend6502.Cpu.State

namespace Backend6502.Lowering

open Code (Surroundings)
open Cpu (State Access)
open Symbols (Table)

theorem Scope.registers_free {scope : Scope} (defined : scope.symbols.Defined) (name : String)
    (register : isRegisterName name = true) : scope.symbols.getVariable? name = none := by
  refine defined.getVariable?_reserved ?_
  rw [Symbols.isReserved]
  exact Bool.or_eq_true_iff.mpr (.inl register)

/--
Where code works: the bytes that it reads and the states that it starts from. If it does arithmetic,
that is binary, and the accumulator may be pushed.
-/
structure Ground where
  w : Surroundings
  scope : Scope
  cells : String → Int64 → Prop
  starts : State → Prop
  arithmetic : Prop
  registers_free : ∀ name, isRegisterName name = true → scope.symbols.getVariable? name = none
  scratch_apart : ∀ name offset, cells name offset →
    cellAddress w scope.symbols name offset ≠ scratchAddress w
  stack_apart : arithmetic → ∀ s, starts s → ∀ name offset, cells name offset →
    cellAddress w scope.symbols name offset ≠ s.stackTop
  binary : arithmetic → ∀ s, starts s → s.decimal = false

namespace Ground

abbrev table (G : Ground) : Table :=
  G.scope.symbols

def address (G : Ground) (name : String) (offset : Int64) : UInt16 :=
  cellAddress G.w G.table name offset

def scratch (G : Ground) : UInt16 :=
  scratchAddress G.w

/-- May code that started from this state write to an address on its way? -/
def Spare (G : Ground) (s : State) (address : UInt16) : Prop :=
  address = G.scratch ∨ G.arithmetic ∧ address = s.stackTop

/-- Does a store into the place leave all other bytes that are read as they are? -/
def Tracks (G : Ground) : Place → Prop
  | .cell name _ offset _ => G.cells name offset ∧ ∀ other k, G.cells other k → other ≠ name →
    G.address name offset ≠ G.address other k
  | _ => True

theorem plain_of_found (G : Ground) {name : String} {v : Symbols.Variable}
    (found : G.table.getVariable? name = some v) : isRegisterName name = false := by
  refine eq_false_of_ne_true fun register => ?_
  rw [G.registers_free name register] at found
  cases found

theorem not_spare (G : Ground) {s : State} {name : String} {offset : Int64} (starts : G.starts s)
    (cell : G.cells name offset) : ¬G.Spare s (G.address name offset) := by
  rintro (scratch | ⟨arithmetic, top⟩)
  · exact G.scratch_apart name offset cell scratch
  · exact G.stack_apart arithmetic s starts name offset cell top

end Ground

/-- A state that code may come to on its way, and the state that it started from. -/
structure Near (G : Ground) (s t : State) : Prop where
  starts : G.starts s
  x : t.x = s.x
  y : t.y = s.y
  sp : t.sp = s.sp
  decimal : t.decimal = s.decimal
  memory : ∀ address, ¬G.Spare s address → t.read address = s.read address

namespace Near

variable {G : Ground} {s t u : State}

theorem refl (starts : G.starts s) : Near G s s :=
  ⟨starts, rfl, rfl, rfl, rfl, fun _ _ => rfl⟩

section

variable (near : Near G s t)

include near

theorem alike (same : t.Alike u) : Near G s u where
  starts := near.starts
  x := same.x.trans near.x
  y := same.y.trans near.y
  sp := same.sp.trans near.sp
  decimal := same.decimal.trans near.decimal
  memory address free := by rw [same.read, near.memory address free]

theorem aside {address : UInt16} (b : UInt8) (spare : G.Spare s address) :
    Near G s (t.write address b) where
  starts := near.starts
  x := near.x
  y := near.y
  sp := near.sp
  decimal := near.decimal
  memory other free := by
    have apart : address ≠ other := by
      rintro rfl
      exact free spare
    rw [State.read_write, if_neg apart, near.memory other free]

theorem stackTop : t.stackTop = s.stackTop := by
  rw [State.stackTop, near.sp]
  rfl

theorem binary (arithmetic : G.arithmetic) : t.decimal = false :=
  near.decimal.trans (G.binary arithmetic s near.starts)

end

end Near

/-- Nothing has changed but the accumulator, the flags and the scratch cell. -/
structure Untouched (w : Surroundings) (s t : State) : Prop where
  x : t.x = s.x
  y : t.y = s.y
  sp : t.sp = s.sp
  decimal : t.decimal = s.decimal
  memory : ∀ address, address ≠ scratchAddress w → t.read address = s.read address

namespace Untouched

variable {w : Surroundings} {s t u : State}

theorem of_alike (alike : s.Alike t) : Untouched w s t :=
  ⟨alike.x, alike.y, alike.sp, alike.decimal, fun address _ => alike.read address⟩

theorem trans (first : Untouched w s t) (second : Untouched w t u) : Untouched w s u where
  x := second.x.trans first.x
  y := second.y.trans first.y
  sp := second.sp.trans first.sp
  decimal := second.decimal.trans first.decimal
  memory address other := (second.memory address other).trans (first.memory address other)

theorem scratched (s : State) (b : UInt8) : Untouched w s (s.write (scratchAddress w) b) :=
  ⟨rfl, rfl, rfl, rfl, fun address other =>
    (State.read_write s _ address b).trans (if_neg other.symm)⟩

end Untouched

theorem Near.untouched_of {G : Ground} {s t u : State} (near : Near G s t)
    (aside : Untouched G.w t u) : Near G s u where
  starts := near.starts
  x := aside.x.trans near.x
  y := aside.y.trans near.y
  sp := aside.sp.trans near.sp
  decimal := aside.decimal.trans near.decimal
  memory address free :=
    (aside.memory address fun scratch => free (.inl scratch)).trans (near.memory address free)

def Flags.Shown (G : Ground) (s : State) : Flags → Prop
  | .unknown => True
  | .accumulator => s.Shows s.a
  | .x => s.Shows s.x
  | .y => s.Shows s.y
  | .cell name _ offset => G.cells name offset ∧ s.Shows (s.read (G.address name offset))

/-- The place of a byte: a constant, a register, the scratch cell or a byte of a variable. -/
def Place.IsByte (G : Ground) : Place → Prop
  | .immediate _ | .scratch _ | .accumulator _ | .x | .y => True
  | .cell name _ offset _ => G.cells name offset
  | _ => False

namespace Place

variable {G : Ground} {s t : State} {place : Place}

theorem IsByte.isDirect (isByte : place.IsByte G) (other : place.isIndexRegister = false) :
    place.isDirect = true := by
  cases place with
  | x | y => cases other
  | indexedX | indexedY | nothing | label => exact isByte.elim
  | _ => rfl

/-- The byte at a place does not depend on the flags, nor on the accumulator if it is not there. -/
theorem byte_alike {w : Surroundings} {table : Table} (same : s.Alike t)
    (other : place.isAccumulator = false) : place.byte w table t = place.byte w table s := by
  cases place with
  | accumulator => cases other
  | x => exact same.x
  | y => exact same.y
  | scratch | cell => exact same.read _
  | _ => rfl

/-- An index is no part of what code may change on its way. -/
theorem reach_alike {w : Surroundings} {table : Table} (same : s.Alike t) :
    place.reach w table t = place.reach w table s := by
  have word (address : UInt16) : t.readWord address = s.readWord address := by
    simp only [State.readWord, same.read]
  cases place with
  | indexedX => rw [reach, reach, same.x]
  | indexedY => rw [reach, reach, same.y, word]
  | _ => rfl

theorem seen_alike {w : Surroundings} {table : Table} (same : s.Alike t)
    (other : place.isAccumulator = false) : place.seen w table t = place.seen w table s := by
  cases place with
  | indexedX | indexedY =>
    rw [seen, seen, reach_alike same]
    · exact same.read _
    all_goals nofun
  | _ => exact @byte_alike s t _ w table same other

theorem byte_write {w : Surroundings} {table : Table} {address : UInt16} (b : UInt8)
    (elsewhere : place.access w table ≠ .address address) :
    place.byte w table (s.write address b) = place.byte w table s := by
  have apart {own : UInt16} (reached : place.access w table = .address own) :
      (s.write address b).read own = s.read own := by
    have ne : address ≠ own := fun same => elsewhere (same ▸ reached)
    rw [State.read_write, if_neg ne]
  cases place with
  | scratch | cell => exact apart rfl
  | _ => rfl

theorem IsByte.access_ne_scratch (isByte : place.IsByte G) (other : place.isScratch = false) :
    place.access G.w G.table ≠ .address G.scratch := by
  intro same
  cases place with
  | scratch => cases other
  | cell name is8Bit offset signed =>
    exact G.scratch_apart name offset isByte (Access.address.inj same)
  | _ => cases same

/-- A push writes nothing but the top of the stack, where no value is. -/
theorem IsByte.byte_push (isByte : place.IsByte G) (arithmetic : G.arithmetic) (near : Near G s t)
    (b : UInt8) : place.byte G.w G.table (t.push b) = place.byte G.w G.table t := by
  have same : place.byte G.w G.table (t.push b) =
      place.byte G.w G.table (t.write s.stackTop b) := by
    rw [← near.stackTop]
    cases place <;> rfl
  rw [same]
  refine Place.byte_write b fun reached => ?_
  cases place with
  | scratch => exact s.stackTop_ne_zeroPage _ (Access.address.inj reached).symm
  | cell name is8Bit offset signed =>
    exact G.stack_apart arithmetic s near.starts name offset isByte (Access.address.inj reached)
  | _ => cases reached

end Place

/-- A value that is in no place that code may change is found as it was at the start. -/
theorem Near.byte_eq {G : Ground} {s t : State} {place : Place} (near : Near G s t)
    (isByte : place.IsByte G) (notAcc : place.isAccumulator = false)
    (notScratch : place.isScratch = false) :
    place.byte G.w G.table t = place.byte G.w G.table s := by
  cases place with
  | accumulator => cases notAcc
  | scratch => cases notScratch
  | immediate => rfl
  | x => exact near.x
  | y => exact near.y
  | cell name is8Bit offset signed => exact near.memory _ (G.not_spare near.starts isByte)
  | nothing | indexedX | indexedY | label => exact isByte.elim

namespace Flags

variable {G : Ground} {s : State} {flags : Flags}

theorem shown_load {place : Place} (isByte : place.IsByte G) (flags : Flags) :
    (flags.after .lda place).Shown G (s.setA (place.byte G.w G.table s)) := by
  cases place with
  | cell name is8Bit offset signed => exact ⟨isByte, rfl, rfl⟩
  | _ => exact ⟨rfl, rfl⟩

/-- What becomes of the flags when a register is stored. -/
theorem afterStore_cases (flags source : Flags) (place : Place) :
    flags.afterStore source place = .unknown ∨
      (flags.afterStore source place = flags ∧
        ∀ name is8Bit offset, flags = .cell name is8Bit offset → name ≠ place.name) ∨
      (flags = source ∧ flags.afterStore source place = ofPlace place ∧
        ∃ name is8Bit offset signed, place = .cell name is8Bit offset signed) := by
  unfold afterStore
  split
  · next name _ _ =>
    split
    · exact .inl rfl
    · next other =>
      refine .inr (.inl ⟨rfl, ?_⟩)
      rintro _ _ _ ⟨⟩ same
      exact other (beq_iff_eq.mpr same)
  · next noCell =>
    have kept : ∀ name is8Bit offset, flags = .cell name is8Bit offset → name ≠ place.name :=
      fun name is8Bit offset same => absurd same (noCell name is8Bit offset)
    split
    · next same =>
      split
      · exact .inr (.inr ⟨beq_iff_eq.mp same, rfl, _, _, _, _, rfl⟩)
      · exact .inr (.inl ⟨rfl, kept⟩)
    · exact .inr (.inl ⟨rfl, kept⟩)

/-- After a store of a register the flags show what they showed, or the cell as well. -/
theorem Shown.afterStore {source : Flags} {place : Place} {address : UInt16} {b : UInt8}
    (shown : flags.Shown G s) (value : source.Shown G s → s.Shows b) (tracks : G.Tracks place)
    (reached : place.access G.w G.table = .address address) :
    (flags.afterStore source place).Shown G (s.write address b) := by
  rcases afterStore_cases flags source place with forgotten | ⟨kept, apart⟩ | ⟨same, moved, written⟩
  · rw [forgotten]
    trivial
  · rw [kept]
    cases flags with
    | cell name is8Bit offset =>
      obtain ⟨cell, shows⟩ := shown
      have elsewhere : address ≠ G.address name offset := by
        rintro rfl
        cases place with
        | scratch => exact G.scratch_apart name offset cell (Access.address.inj reached).symm
        | cell target _ k signed =>
          exact tracks.2 name offset cell (apart _ _ _ rfl) (Access.address.inj reached)
        | _ => cases reached
      refine ⟨cell, ?_⟩
      rw [State.read_write, if_neg elsewhere]
      exact shows
    | _ => exact shown
  · obtain ⟨name, is8Bit, offset, signed, rfl⟩ := written
    have own : address = G.address name offset := (Access.address.inj reached).symm
    rw [moved]
    refine ⟨tracks.1, ?_⟩
    rw [own, State.read_write, if_pos rfl]
    exact value (same ▸ shown)

end Flags

end Backend6502.Lowering
