import Backend6502.Proofs.FoldedConstants
import Backend6502.Proofs.WordUpdates

/-!
# Where bytes stand, and shifts of them

A byte that can be assigned is an index register, a variable, or an element that X or a number
selects. It stands in one place, no code is needed to find it, and what is assigned to it is written
there.

A byte is shifted in the accumulator, bit by bit. A shift of a word to the right, of which a byte is
kept, shifts the low byte alone; only a shift by a whole byte reads the high one. So the byte that
is stored is the right one exactly if no bit would come down from the high byte.
-/

namespace Backend6502.Lowering

open Code (Surroundings Steps)
open Cpu (State)
open Source (Expr Loc isByteCell)
open Symbols (Table Variable)

/-- Where a byte stands that can be assigned: the place of a name with an index. -/
inductive ByteAt (table : Table) : String → Expr → Place → Prop where
  | x : ByteAt table "X" .absent .x
  | y : ByteAt table "Y" .absent .y
  | scalar {name : String} {v : Variable} (found : table.getVariable? name = some v)
      (isByte : isByteCell v = true) : ByteAt table name .absent (.cell name true 0 v.signed)
  | element {name : String} {v : Variable} {k : Int64} (found : table.getVariable? name = some v)
      (plain : v.pointer = false) (least : 0 ≤ k) (most : k < v.length) :
      ByteAt table name (.int k) (.cell name true k v.signed)
  | indexed {name : String} {v : Variable} (found : table.getVariable? name = some v)
      (plain : v.pointer = false) : ByteAt table name (.var "X" .absent) (.indexedX name v.signed)

theorem readElement_same {scope : Scope} {c d : Context} {name : String} {index : Expr} {p : Place}
    {v : Variable} (defined : scope.symbols.Defined)
    (found : scope.symbols.getVariable? name = some v) (given : index.isAbsent = false)
    (ok : readVariable name index scope c = .ok p d) :
    v.name = name ∧ readElement v index scope c = .ok p d := by
  unfold readVariable at ok
  rw [Scope.plain_of_found defined found, if_neg Bool.false_ne_true] at ok
  obtain ⟨table, _, ⟨⟩, ok⟩ := bind_inv ok
  rw [found] at ok
  dsimp only at ok
  rw [given, if_neg Bool.false_ne_true] at ok
  exact ⟨(Table.of_getVariable? found).2, ok⟩

/-- Outside of the pass for high bytes a byte stands for itself. -/
theorem element_same {scope : Scope} {c d : Context} {place p : Place} (low : c.high = false)
    (ok : element place scope c = .ok p d) : d = c ∧ p = place := by
  obtain ⟨high, _, ⟨⟩, ok⟩ := bind_inv ok
  rw [low] at ok
  cases ok
  exact ⟨rfl, rfl⟩

namespace ByteAt

variable {w : Surroundings} {scope : Scope} {c d : Context} {name : String} {index : Expr}
  {place p : Place}

theorem readable {table : Table} (located : ByteAt table name index place) :
    place.isReadable table = true := by
  cases located <;> rfl

theorem narrow (located : ByteAt scope.symbols name index place)
    (defined : scope.symbols.Defined) : wideVariable? scope.symbols (.var name index) = none := by
  cases located with
  | x => simp [wideVariable?, Scope.registers_free defined "X" rfl]
  | y => simp [wideVariable?, Scope.registers_free defined "Y" rfl]
  | scalar found isByte => exact narrow_of_isByteCell found isByte
  | element | indexed => rfl

theorem needsY {table : Table} (located : ByteAt table name index place) :
    needsY table (.var name index) = false := by
  cases located with
  | element found plain =>
    rw [Lowering.needsY, isPointer, found]
    exact plain
  | _ => rfl

section

variable (located : ByteAt scope.symbols name index place) (defined : scope.symbols.Defined)

include located defined

theorem read (low : c.high = false) (ok : readVariable name index scope c = .ok p d) :
    d = c ∧ p = place := by
  cases located with
  | x | y =>
    obtain ⟨same, stands⟩ := rests_register rfl c p d ok
    rw [low] at stands
    exact ⟨same, stands⟩
  | @scalar _ v found isByte =>
    have narrow : v.size ≠ 2 := fun wide => by simp [isByteCell, wide] at isByte
    have ok := readVariable_same (Scope.plain_of_found defined found) found ok
    rw [isConst_of_isByteCell isByte, Bool.false_and, if_neg Bool.false_ne_true, readScalar,
      if_neg narrow, (Table.of_getVariable? found).2] at ok
    exact element_same low ok
  | element found plain least most =>
    obtain ⟨named, ok⟩ := readElement_same defined found rfl ok
    unfold readElement at ok
    have ok := check_eq_ok (check_eq_ok ok)
    have reads := @emits_readConstantElement c ⟨fun _ => 0, fun _ _ => none, fun _ _ => none⟩ scope
      _ _ plain least most low
    obtain ⟨-, -, -, same, -, stands⟩ := reads p d ok
    exact ⟨same, named ▸ stands⟩
  | indexed found plain =>
    obtain ⟨named, ok⟩ := readElement_same defined found rfl ok
    unfold readElement at ok
    have ok := check_eq_ok (check_eq_ok ok)
    change (if _ = true then fail _ else Lowering.element _) scope c = _ at ok
    rw [plain, if_neg Bool.false_ne_true, named] at ok
    exact element_same low ok

/-- It is written where it stands, in either pass. -/
theorem target (ok : target (.var name index) scope c = .ok p d) : d = c ∧ p = place := by
  obtain ⟨_, _, checks, ok⟩ := bind_inv ok
  cases checkWritable_same checks
  obtain ⟨isWide, _, ⟨⟩, ok⟩ := bind_inv ok
  rw [located.narrow defined] at ok
  obtain ⟨e, reads, rfl⟩ := withHigh_eq_ok ok
  obtain ⟨rfl, stands⟩ := located.read defined rfl reads
  exact ⟨rfl, stands⟩

theorem stmt_assigns {P : State → State → UInt8 → Prop} {rhs : Expr} {loc : Loc}
    (values : ∀ begun, begun.high = false → begun.accInUse = false →
      Emits w scope begun (lower rhs).value fun v d g => v.isDirect = true ∧ Passed begun d ∧
        ∀ s, P s (g s) (v.byte w scope.symbols (g s)))
    (low : c.high = false) (free : c.accInUse = false) (none : c.deferred = []) :
    Ensures (stmt (.expr loc (.binary .assign (.var name index) rhs))) scope c fun _ d =>
      ∃ code, d.code = c.code ++ code ∧ ∀ s, ∃ t, Steps w code ⟨code, s⟩ ⟨[], t⟩ ∧
        ∃ u b, P s u b ∧ (place.fill w scope.symbols b u).Alike t := by
  refine stmt_assigns_straight rfl (fun begun low free => ?_) low free none
  refine emits_assignNarrow (located.narrow defined) low ?_
  refine (emits_storeInto located.needsY (fun _ _ _ _ => located.target defined) located.readable
    free (values begun low free)).mono ?_
  rintro _ d g ⟨passed, v, h, holds, stores⟩
  refine ⟨passed.high.trans low, passed.deferred, fun s => ⟨h s, _, holds s, ?_⟩⟩
  have stored := (stores s).1
  rw [low, Place.part, Place.inPass_false] at stored
  exact stored

end

end ByteAt

open Cpu (Memory byteOf)
open Source (Op)

/-- A byte that has been shifted by one bit; a signed one keeps its sign to the right. -/
def shiftedOnce (op : Op) (signed : Bool) (b : UInt8) : UInt8 :=
  if op = .shl then b <<< 1
  else if signed then b >>> 1 ||| Cpu.flagBits 0x80 (0x80 ≤ b)
  else b >>> 1

section Shifting

variable {w : Surroundings} {scope : Scope} {c : Context} {op : Op}

theorem emits_shiftPass (op : Op) (signed : Bool) :
    Emits w scope c (shiftOnce op signed) fun _ d g => Passed c d ∧
      ∀ s : State, s.Alike (g s) ∧ (g s).a = shiftedOnce op signed s.a := by
  unfold shiftOnce shiftedOnce
  refine .ite (fun left => ?_) fun right => .ite (fun isSigned => ?_) fun unsigned => ?_
  · refine .passing (.emitPass rfl rfl) fun s => ?_
    rw [if_pos left]
    exact ⟨⟨rfl, rfl, rfl, rfl, rfl⟩, rfl⟩
  · refine .bind (.emitByte rfl 0x80) ?_
    rintro _ d g ⟨⟨code, rfl⟩, compares⟩
    refine (Emits.emitPass rfl rfl).mono ?_
    rintro _ e h ⟨⟨others, rfl⟩, rotates⟩
    refine ⟨.of_coded _ _ _, fun s => ?_⟩
    rw [Function.comp_apply, rotates, compares, if_neg right, if_pos isSigned]
    exact ⟨⟨rfl, rfl, rfl, rfl, rfl⟩, rfl⟩
  · refine .passing (.emitPass rfl rfl) fun s => ?_
    rw [if_neg right, if_neg unsigned]
    exact ⟨⟨rfl, rfl, rfl, rfl, rfl⟩, rfl⟩

theorem emits_shiftsPass (op : Op) (signed : Bool) (n : Nat) :
    Emits w scope c (shiftTimes op signed n) fun _ d g => Passed c d ∧
      ∀ s : State, s.Alike (g s) ∧ (g s).a = (shiftedOnce op signed)^[n] s.a := by
  induction n generalizing c with
  | zero => exact .pure ⟨.of_coded _ _ _, fun s => ⟨.refl s, rfl⟩⟩
  | succ n ih =>
    refine .bind (emits_shiftPass op signed) fun _ d g ⟨passed, once⟩ => ?_
    refine ih.mono fun _ e h ⟨passed', further⟩ => ⟨passed.trans passed', fun s => ?_⟩
    obtain ⟨alike, acc⟩ := once s
    obtain ⟨alike', acc'⟩ := further (g s)
    exact ⟨alike.trans alike', by rw [Function.comp_apply, acc', acc]; rfl⟩

/-- A byte that is no constant is shifted in the accumulator, unless it stays where it is. -/
theorem emits_shiftBits {lhs : Operand} {place : Place} {k : Int64}
    (rests : ∀ p d, lhs.value scope c = .ok p d → d = c ∧ p = place)
    (readable : place.isReadable scope.symbols = true) (varies : ∀ n, place ≠ .immediate n)
    (direct : k = 0 → place.isDirect = true) (low : c.high = false) (free : c.accInUse = false) :
    Emits w scope c (shiftBits op lhs k) fun v d g => v.isDirect = true ∧ Passed c d ∧ ∀ s : State,
      (0 ≤ k ∧ k ≤ 8) ∧ s.Alike (g s) ∧ v.byte w scope.symbols (g s) =
        (shiftedOnce op place.signed)^[k.toInt.toNat] (place.seen w scope.symbols s) := by
  have notAcc : place.isAccumulator = false := by
    cases place <;> first | rfl | cases readable
  unfold shiftBits
  refine .check fun within => ?_
  have within : 0 ≤ k ∧ k ≤ 8 := by simpa [not_or, Int64.not_lt] using within
  refine .accInUse (.reading rests fun p same => ?_)
  cases same
  split
  · exact absurd rfl (varies _)
  · refine .inHigh ?_
    rw [low, if_neg Bool.false_ne_true]
    refine .ite (fun zero => .pure ?_) fun _ => ?_
    · have plain : place.isIndexed = false := by
        cases place <;> first | rfl | cases direct zero
      refine ⟨direct zero, .of_coded _ _ _, fun s => ⟨within, .refl s, ?_⟩⟩
      rw [zero, Place.seen_eq_byte plain]
      rfl
    · rw [free, notAcc, Bool.not_false, if_pos rfl, show save false = (pure () : Gen Unit) from rfl,
        pure_bind]
      refine .bind (.loadPass readable) ?_
      rintro _ d g ⟨⟨code, rfl⟩, loads⟩
      refine .bind (emits_shiftsPass _ _ _) fun _ e h ⟨passed, shifts⟩ => ?_
      refine .pure ⟨rfl, Passed.trans (.of_coded _ _ _) passed, fun s => ?_⟩
      obtain ⟨alike, acc⟩ := shifts (g s)
      have loaded : s.Alike (g s) ∧ (g s).a = place.seen w scope.symbols s := by
        rw [loads, low, Place.inPass_false]
        exact ⟨⟨rfl, rfl, rfl, rfl, rfl⟩, rfl⟩
      exact ⟨within, loaded.1.trans alike, acc.trans (congrArg _ loaded.2)⟩

end Shifting

/-- The byte that is stored for a shift of a word to the right. -/
def shiftedPart (n : Nat) (word : UInt16) : UInt8 :=
  if n = 8 then byteOf true word else .ofNat ((byteOf false word).toNat >>> n)

theorem toNat_shiftedOnce (n : Nat) (b : UInt8) :
    ((shiftedOnce .shr false)^[n] b).toNat = b.toNat >>> n := by
  induction n generalizing b with
  | zero => rfl
  | succ n ih =>
    have once : (shiftedOnce .shr false b).toNat = b.toNat >>> 1 := UInt8.toNat_shiftRight b 1
    rw [Function.iterate_succ_apply, ih, once, ← Nat.shiftRight_add, Nat.add_comm]

/-- It is the right byte exactly if no bit comes down from the high byte. -/
theorem shiftedPart_eq_iff {n : Nat} (most : n ≤ 8) (word : UInt16) :
    (shiftedPart n word).toNat = word.toNat >>> n % 256 ↔
      n = 8 ∨ (byteOf true word).toNat % (1 <<< n) = 0 := by
  have small := word.toNat_lt
  have byte (m : Nat) : (UInt8.ofNat ((word.toNat % 256) >>> m)).toNat = (word.toNat % 256) >>> m :=
    UInt8.toNat_ofNat_of_lt' (Nat.lt_of_le_of_lt (Nat.shiftRight_le _ _) (Nat.mod_lt _ (by decide)))
  rw [shiftedPart, Cpu.toNat_byteOf_false, Cpu.toNat_byteOf_true, apply_ite UInt8.toNat, byte,
    Cpu.toNat_byteOf_true, Nat.shiftRight_eq_div_pow, Nat.shiftRight_eq_div_pow, Nat.shiftLeft_eq]
  obtain rfl | rfl | rfl | rfl | rfl | rfl | rfl | rfl | rfl :
      n = 0 ∨ n = 1 ∨ n = 2 ∨ n = 3 ∨ n = 4 ∨ n = 5 ∨ n = 6 ∨ n = 7 ∨ n = 8 := by omega
  all_goals
    simp
    omega

section Words

variable {w : Surroundings} {scope : Scope} {c : Context} {name target : String} {v : Variable}
  {amount index : Expr} {place : Place} {k : Int64}

section

variable (defined : scope.symbols.Defined)
  (wide : wideVariable? scope.symbols (.var name .absent) = some v)
  (unsigned : v.signed = false)
  (known : constant? scope.symbols amount = some k)

include defined wide unsigned known

theorem emits_shiftWord (low : c.high = false) (free : c.accInUse = false) :
    Emits w scope c (lower (.binary .shr (.var name .absent) amount)).value fun p d g =>
      p.isDirect = true ∧ Passed c d ∧ ∀ s : State, (0 ≤ k ∧ k ≤ 8) ∧ s.Alike (g s) ∧
        p.byte w scope.symbols (g s) =
          shiftedPart k.toInt.toNat (wordAt w scope.symbols name s) := by
  refine emits_shift (by rw [expr_lower]; exact known) (fun whole => ?_) fun part => ?_
  · obtain ⟨-, named, -, -⟩ := wideVariable?_eq_some wide
    refine .symbols ?_
    have found : wideVariable? scope.symbols (lower (.var name .absent)).expr = some v := wide
    rw [found]
    refine .inHigh ?_
    rw [low, named, whole]
    refine .pure ⟨rfl, .of_coded _ _ _, fun s => ⟨by decide, .refl s, ?_⟩⟩
    exact (byteOf_wordAt w scope.symbols name s true).symm
  · have rests (p : Place) (d : Context)
        (ok : (lower (.var name .absent)).value scope c = .ok p d) :
        d = c ∧ p = .cell name false 0 false := by
      obtain ⟨same, stands⟩ := rests_word defined wide c p d ok
      rw [low, unsigned] at stands
      exact ⟨same, stands⟩
    refine Emits.mono (emits_shiftBits rests rfl nofun (fun _ => rfl) low free) ?_
    rintro p d g ⟨direct, passed, run⟩
    refine ⟨direct, passed, fun s => ?_⟩
    obtain ⟨within, alike, value⟩ := run s
    have other : k.toInt.toNat ≠ 8 := fun eight => part (Int64.toInt_inj.mp (by
      change k.toInt = 8
      omega))
    have seen : (Place.cell name false 0 false).seen w scope.symbols s =
        byteOf false (wordAt w scope.symbols name s) :=
      (byteOf_wordAt w scope.symbols name s false).symm
    refine ⟨within, alike, ?_⟩
    rw [value, seen, shiftedPart, if_neg other, ← toNat_shiftedOnce, UInt8.ofNat_toNat]
    rfl

/--
Code for the assignment of a shifted word stores a byte, and the shift is by eight bits at most.
-/
theorem stmt_stores_shifted (located : ByteAt scope.symbols target index place) (loc : Loc)
    (low : c.high = false) (free : c.accInUse = false) (none : c.deferred = []) :
    Ensures (stmt (.expr loc (.binary .assign (.var target index)
        (.binary .shr (.var name .absent) amount)))) scope c fun _ d =>
      ∃ code, d.code = c.code ++ code ∧ (0 ≤ k ∧ k ≤ 8) ∧ ∀ s, ∃ t,
        Steps w code ⟨code, s⟩ ⟨[], t⟩ ∧ (place.fill w scope.symbols
          (shiftedPart k.toInt.toNat (wordAt w scope.symbols name s)) s).Alike t := by
  refine (located.stmt_assigns (w := w) (P := fun s u b => (0 ≤ k ∧ k ≤ 8) ∧ s.Alike u ∧
      b = shiftedPart k.toInt.toNat (wordAt w scope.symbols name s)) defined
    (fun begun low free => emits_shiftWord defined wide unsigned known low free) low free
    none).mono ?_
  rintro _ d ⟨code, added, runs⟩
  obtain ⟨_, -, _, _, ⟨within, -⟩, -⟩ := runs {}
  refine ⟨code, added, within, fun s => ?_⟩
  obtain ⟨t, steps, u, _, ⟨-, alike, rfl⟩, stored⟩ := runs s
  exact ⟨t, steps, (Place.fill_alike alike).trans stored⟩

end

/--
Code for the assignment of a word that is shifted to the right, by eight bits at most, stores its
high byte or a part of its low one. That is the lowest byte of the shifted word exactly if no bit of
the high byte would come down.
-/
theorem stmt_shifts_word (defined : scope.symbols.Defined)
    (wide : wideVariable? scope.symbols (.var name .absent) = some v) (unsigned : v.signed = false)
    (known : constant? scope.symbols amount = some k)
    (located : ByteAt scope.symbols target index place) (loc : Loc) (low : c.high = false)
    (free : c.accInUse = false) (none : c.deferred = []) :
    Ensures (stmt (.expr loc (.binary .assign (.var target index)
        (.binary .shr (.var name .absent) amount)))) scope c fun _ d =>
      ∃ code, d.code = c.code ++ code ∧ (0 ≤ k ∧ k ≤ 8) ∧ ∀ s,
        let word := wordAt w scope.symbols name s
        let n := k.toInt.toNat
        (∃ t, Steps w code ⟨code, s⟩ ⟨[], t⟩ ∧
          (place.fill w scope.symbols (shiftedPart n word) s).Alike t) ∧
        ((shiftedPart n word).toNat = word.toNat >>> n % 256 ↔
          n = 8 ∨ (byteOf true word).toNat % (1 <<< n) = 0) := by
  refine (stmt_stores_shifted (w := w) defined wide unsigned known located loc low free
    none).mono ?_
  rintro _ d ⟨code, added, within, runs⟩
  have most : k.toInt.toNat ≤ 8 := by
    have most := Int64.le_iff_toInt_le.mp within.2
    change k.toInt ≤ 8 at most
    omega
  exact ⟨code, added, within, fun s => ⟨runs s, shiftedPart_eq_iff most _⟩⟩

end Words

def shiftStart (word : UInt16) : State where
  memory := (({} : Memory).write 0x210 (byteOf false word)).write 0x211 (byteOf true word)

/-- The shift of `w` to the right by an amount, assigned to `a`. -/
def wordShift (amount : Int64) : Expr :=
  .binary .assign (.var "a" .absent) (.binary .shr (.var "w" .absent) (.int amount))

theorem located_a : ByteAt constantSymbols "a" .absent (.cell "a" true 0 false) :=
  .scalar (v := { name := "a", size := 1 }) (by decide +kernel) rfl

/-- No bit of 0x10 comes down in a shift of 0x10F8 by four, and 0x0F is stored. -/
theorem shifted_word_stored :
    ∃ d t, stmt (.expr {} (wordShift 4)) ⟨constantSymbols, { name := "main" }⟩ {} = .ok () d ∧
      Steps constantPlaces d.code ⟨d.code, shiftStart 0x10F8⟩ ⟨[], t⟩ ∧
        (t.read 0x200).toNat = 0x10F8 >>> 4 % 256 := by
  have ensures := @stmt_shifts_word constantPlaces ⟨constantSymbols, { name := "main" }⟩ {} "w" "a"
    { name := "w", size := 2 } (.int 4) .absent _ 4 constantSymbols_defined (by decide +kernel) rfl
    rfl located_a {} rfl rfl rfl
  have goes : goesThrough (stmt (.expr {} (wordShift 4))) ⟨constantSymbols, { name := "main" }⟩ {}
      (fun _ => true) = true := by
    decide +kernel
  obtain ⟨d, ran, -, -, runs⟩ := ensures.exists_code rfl goes
  obtain ⟨⟨t, steps, stored⟩, right⟩ := runs (shiftStart 0x10F8)
  refine ⟨d, t, ran, steps, ?_⟩
  rw [stored.read]
  exact right.mpr (.inr (by decide +kernel))

/-- A bit of 0x0100 is lost in a shift by one: zero is stored. -/
theorem shifted_word_not_stored :
    ∃ d t, stmt (.expr {} (wordShift 1)) ⟨constantSymbols, { name := "main" }⟩ {} = .ok () d ∧
      Steps constantPlaces d.code ⟨d.code, shiftStart 0x100⟩ ⟨[], t⟩ ∧
        (t.read 0x200).toNat ≠ 0x100 >>> 1 % 256 := by
  obtain ⟨_, d, t, ran, steps, lost⟩ := @exists_run_of_goesThrough _
    (stmt (.expr {} (wordShift 1))) constantPlaces ⟨constantSymbols, { name := "main" }⟩ {}
    (shiftStart 0x100) (fun t => (t.read 0x200).toNat != 0x100 >>> 1 % 256) 20 (by decide +kernel)
  exact ⟨d, t, ran, steps, bne_iff_ne.mp lost⟩

end Backend6502.Lowering
