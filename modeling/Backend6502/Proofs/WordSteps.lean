import Backend6502.Proofs.Branching
import Backend6502.Proofs.WordPasses

/-!
# Steps of a word

One is added to a word by adding it to the low byte, and to the high byte too if the low one became
zero. One is subtracted from the high byte first, if the low byte is zero, and then from the low
one.
-/

namespace Backend6502.Code

open Cpu (Mnemonic State)

/-- A branch to the label behind some straight code skips that code if it is taken. -/
theorem Steps.skips {w : Surroundings} {m : Mnemonic} {code : List Instruction} (name : String)
    (branches : m.isBranch = true) (straight : ∀ i ∈ code, i.isStraight = true)
    (before rest : List Line) (last : name ∉ labelNames rest) (s : State) :
    Steps w (before ++ .instruction (.branch m name) ::
        (code.map .instruction ++ .label name :: rest))
      ⟨.instruction (.branch m name) :: (code.map .instruction ++ .label name :: rest), s⟩
      ⟨rest, if s.takes m then s else effects w code s⟩ := by
  cases taken : s.takes m with
  | true =>
    have found := fromLabel?_of_last name
      (before ++ .instruction (.branch m name) :: code.map .instruction) rest last
    rw [List.append_assoc, List.cons_append] at found
    exact .head (Point.step?_of_jump (Line.flow_taken rfl branches taken) found)
      (.single (Point.step?_of_next rfl))
  | false =>
    refine .head (Point.step?_of_next (Line.flow_passed rfl branches taken)) ?_
    exact (Steps.straight straight (.label name :: rest) s).trans
      (.single (Point.step?_of_next rfl))

end Backend6502.Code

namespace Backend6502.Cpu

theorem byteOf_add_one (word : UInt16) (high : Bool) : byteOf high (word + 1) =
      if high then if byteOf false word + 1 = 0 then byteOf true word + 1 else byteOf true word
      else byteOf false word + 1 := by
  have small := word.toNat_lt
  have wraps : byteOf false word + 1 = 0 ↔ word.toNat % 256 = 255 := by
    rw [← UInt8.toNat_inj]
    simp [toNat_byteOf_false]
    omega
  cases high with
  | false =>
    apply UInt8.toNat_inj.mp
    simp [toNat_byteOf_false]
  | true =>
    apply UInt8.toNat_inj.mp
    rw [if_pos rfl]
    split
    · next zero =>
      have full := wraps.mp zero
      simp [toNat_byteOf_true]
      omega
    · next nonzero =>
      have notFull : ¬word.toNat % 256 = 255 := fun full => nonzero (wraps.mpr full)
      simp [toNat_byteOf_true]
      omega

theorem byteOf_sub_one (word : UInt16) (high : Bool) : byteOf high (word - 1) =
      if high then if byteOf false word = 0 then byteOf true word - 1 else byteOf true word
      else byteOf false word - 1 := by
  have whole (high : Bool) := byteOf_add_one (word - 1) high
  rw [UInt16.sub_add_cancel] at whole
  have low : byteOf false word = byteOf false (word - 1) + 1 := whole false
  have top := whole true
  rw [if_pos rfl, ← low] at top
  cases high with
  | false =>
    rw [if_neg Bool.false_ne_true, low, UInt8.add_sub_cancel]
  | true =>
    rw [if_pos rfl]
    split
    · next zero => rw [top, if_pos zero, UInt8.add_sub_cancel]
    · next nonzero => rw [top, if_neg nonzero]

end Backend6502.Cpu

namespace Backend6502.Lowering

open Code (Line Surroundings Steps Point effects)
open Cpu (Mnemonic State byteOf wordOf)
open Source (Op)
open Symbols (Table Variable)

variable {w : Surroundings} {name : String} {m : Mnemonic}

/-- A word has been assigned to a variable, and nothing that lasts has changed besides. -/
structure WordAssigned (w : Surroundings) (table : Table) (name : String) (word : UInt16)
    (s t : State) : Prop where
  low : t.read (cellAddress w table name 0) = byteOf false word
  high : t.read (cellAddress w table name 1) = byteOf true word
  x : t.x = s.x
  y : t.y = s.y
  sp : t.sp = s.sp
  decimal : t.decimal = s.decimal
  others : ∀ address, address ≠ cellAddress w table name 0 → address ≠ cellAddress w table name 1 →
    address ≠ scratchAddress w → t.read address = s.read address

def wordAt (w : Surroundings) (table : Table) (name : String) (s : State) : UInt16 :=
  wordOf (s.read (cellAddress w table name 0)) (s.read (cellAddress w table name 1))

theorem byteOf_wordAt (w : Surroundings) (table : Table) (name : String) (s : State) (high : Bool) :
    byteOf high (wordAt w table name s) =
      s.read (cellAddress w table name (if high then 1 else 0)) := by
  rw [wordAt, Cpu.byteOf_wordOf]
  cases high <;> rfl

/-- The code that was added leads from every state to one of its ends. -/
def Brings (w : Surroundings) (c d : Context) (P : State → State → Prop) : Prop :=
  ∃ code, d.code = c.code ++ code ∧ ∀ before s, s.decimal = false →
    ∃ t, Steps w (before ++ code) ⟨code, s⟩ ⟨[], t⟩ ∧ P s t

section Stepping

variable {table : Table} (distinct : cellAddress w table name 0 ≠ cellAddress w table name 1)

include distinct

/-- The order in which both bytes are written does not matter, since they lie apart. -/
theorem wordAssigned_of_passes {word : UInt16} {s t u : State} (first : Bool)
    (before : (s.write (cellAddress w table name (if first then 1 else 0))
      (byteOf first word)).Alike t)
    (after : (t.write (cellAddress w table name (if !first then 1 else 0))
      (byteOf (!first) word)).Alike u) : WordAssigned w table name word s u := by
  have reads (address : UInt16) : u.read address =
      if cellAddress w table name (if !first then 1 else 0) = address then byteOf (!first) word
      else if cellAddress w table name (if first then 1 else 0) = address then byteOf first word
      else s.read address := by
    rw [after.read, State.read_write, before.read, State.read_write]
  refine ⟨?_, ?_, after.x.trans before.x, after.y.trans before.y, after.sp.trans before.sp,
    after.decimal.trans before.decimal, fun address notLow notHigh _ => ?_⟩
  · rw [reads]
    cases first
    · exact (if_neg distinct.symm).trans (if_pos rfl)
    · exact if_pos rfl
  · rw [reads]
    cases first
    · exact if_pos rfl
    · exact (if_neg distinct).trans (if_pos rfl)
  · rw [reads]
    cases first
    · exact (if_neg notHigh.symm).trans (if_neg notLow.symm)
    · exact (if_neg notLow.symm).trans (if_neg notHigh.symm)

theorem wordAssigned_of_low {word : UInt16} {s t : State}
    (stored : (s.write (cellAddress w table name 0) (byteOf false word)).Alike t)
    (same : byteOf true word = byteOf true (wordAt w table name s)) :
    WordAssigned w table name word s t := by
  have reads (address : UInt16) : t.read address =
      if cellAddress w table name 0 = address then byteOf false word else s.read address := by
    rw [stored.read, State.read_write]
  refine ⟨?_, ?_, stored.x, stored.y, stored.sp, stored.decimal, fun address notLow _ _ => ?_⟩
  · rw [reads, if_pos rfl]
  · rw [reads, if_neg distinct, same, byteOf_wordAt]
    rfl
  · rw [reads, if_neg notLow.symm]

/-- After the low byte, the high byte is added to if the low one became zero. -/
theorem wordAssigned_increment {s raised : State}
    (first : raised = s.execute .inc (.address (cellAddress w table name 0))) :
    WordAssigned w table name (wordAt w table name s + 1) s (if raised.takes .bne then raised
      else raised.execute .inc (.address (cellAddress w table name 1))) := by
  have takes : raised.takes .bne = !(byteOf false (wordAt w table name s) + 1 == 0) := by
    rw [first, byteOf_wordAt]
    rfl
  have low : (s.write (cellAddress w table name 0)
      (byteOf false (wordAt w table name s + 1))).Alike raised := by
    rw [first, Cpu.byteOf_add_one, if_neg Bool.false_ne_true, byteOf_wordAt]
    exact ⟨rfl, rfl, rfl, rfl, rfl⟩
  rw [takes]
  by_cases zero : byteOf false (wordAt w table name s) + 1 = 0
  · rw [beq_iff_eq.mpr zero, Bool.not_true, if_neg Bool.false_ne_true]
    have second :
        byteOf true (wordAt w table name s) = raised.read (cellAddress w table name 1) := by
      rw [low.read, State.read_write, if_neg distinct, byteOf_wordAt]
      rfl
    refine wordAssigned_of_passes distinct false low ?_
    rw [Bool.not_false, if_pos rfl, Cpu.byteOf_add_one, if_pos rfl, if_pos zero, second]
    exact ⟨rfl, rfl, rfl, rfl, rfl⟩
  · rw [beq_eq_false_iff_ne.mpr zero, Bool.not_false, if_pos rfl]
    refine wordAssigned_of_low distinct low ?_
    rw [Cpu.byteOf_add_one, if_pos rfl, if_neg zero]

/-- Before the low byte, the high byte is subtracted from if the low one is zero. -/
theorem wordAssigned_decrement {s loaded : State}
    (begins : loaded = s.execute .lda (.address (cellAddress w table name 0))) :
    WordAssigned w table name (wordAt w table name s - 1) s ((if loaded.takes .bne then loaded
      else loaded.execute .dec (.address (cellAddress w table name 1))).execute .dec
        (.address (cellAddress w table name 0))) := by
  have takes : loaded.takes .bne = !(byteOf false (wordAt w table name s) == 0) := by
    rw [begins, byteOf_wordAt]
    rfl
  rw [takes]
  by_cases zero : byteOf false (wordAt w table name s) = 0
  · rw [beq_iff_eq.mpr zero, Bool.not_true, if_neg Bool.false_ne_true]
    have high :
        (s.write (cellAddress w table name 1) (byteOf true (wordAt w table name s - 1))).Alike
        (loaded.execute .dec (.address (cellAddress w table name 1))) := by
      rw [begins, Cpu.byteOf_sub_one, if_pos rfl, if_pos zero, byteOf_wordAt]
      exact ⟨rfl, rfl, rfl, rfl, rfl⟩
    generalize loaded.execute .dec _ = lowered at high ⊢
    have first : byteOf false (wordAt w table name s) =
        lowered.read (cellAddress w table name 0) := by
      rw [high.read, State.read_write, if_neg distinct.symm, byteOf_wordAt]
      rfl
    refine wordAssigned_of_passes distinct true high ?_
    rw [Bool.not_true, if_neg Bool.false_ne_true, Cpu.byteOf_sub_one, if_neg Bool.false_ne_true,
      first]
    exact ⟨rfl, rfl, rfl, rfl, rfl⟩
  · rw [beq_eq_false_iff_ne.mpr zero, Bool.not_false, if_pos rfl]
    refine wordAssigned_of_low distinct ?_ ?_
    · rw [begins, Cpu.byteOf_sub_one, if_neg Bool.false_ne_true, byteOf_wordAt]
      exact ⟨rfl, rfl, rfl, rfl, rfl⟩
    · rw [Cpu.byteOf_sub_one, if_pos rfl, if_neg zero]

end Stepping

section Steps

variable {scope : Scope} {c d : Context} {u : Unit} {v : Variable}

theorem emit_adds {place : Place} (straight : m.isStraight = true)
    (direct : place.isDirect = true) (low : c.high = false) (ok : emit m place scope c = .ok u d) :
    ∃ code, d.code = c.code ++ code.map .instruction ∧ (∀ i ∈ code, i.isStraight = true) ∧
      Passed c d ∧ ∀ s, effects w code s = s.execute m (place.access w scope.symbols) := by
  obtain ⟨code, added, straight, ⟨_, same⟩, run⟩ := Emits.emit straight direct low u d ok
  refine ⟨code, added, straight, ?_, run⟩
  rw [same]
  exact .of_coded _ _ _

theorem emitBranch_adds (branches : m.isBranch = true) (ok : emitBranch m name scope c = .ok u d) :
    d.code = c.code ++ [.instruction (.branch m name)] ∧ Passed c d := by
  rw [emitBranch_eq_ok branches ok]
  exact ⟨rfl, rfl, rfl, rfl⟩

theorem putLabel_adds (ok : putLabel name scope c = .ok u d) :
    d.code = c.code ++ [.label name] ∧ Passed c d := by
  rw [putLabel_eq_ok ok]
  exact ⟨rfl, rfl, rfl, rfl⟩

theorem nextHere_adds (ok : nextHere scope c = .ok name d) :
    d.code = c.code ∧ Passed c d := by
  cases ok
  exact ⟨rfl, rfl, rfl, rfl⟩

theorem keepingA_unneeded {step : Gen Unit} (free : c.accInUse = false)
    (ok : keepingA step scope c = .ok u d) : step scope c = .ok u d := by
  obtain ⟨needed, _, ⟨⟩, ok⟩ := bind_inv ok
  rw [free, if_neg Bool.false_ne_true] at ok
  obtain ⟨_, _, begins, ⟨⟩⟩ := bind_inv ok
  exact begins

/-- A branch skips the second of two instructions if it is taken after the first. -/
theorem skipping_runs {m m' : Mnemonic} {p q : Place} {c₁ c₂ c₃ : Context} (low : c.high = false)
    (first : emit m p scope c = .ok () c₁) (branch : emitBranch .bne name scope c₁ = .ok () c₂)
    (second : emit m' q scope c₂ = .ok () c₃) (label : putLabel name scope c₃ = .ok () d)
    (straight : m.isStraight = true) (straight' : m'.isStraight = true) (direct : p.isDirect = true)
    (direct' : q.isDirect = true) :
    ∃ code, d.code = c.code ++ code ∧ Passed c d ∧ ∀ before rest s, name ∉ Code.labelNames rest →
      Steps w (before ++ (code ++ rest)) ⟨code ++ rest, s⟩
        ⟨rest, if (s.execute m (p.access w scope.symbols)).takes .bne then
            s.execute m (p.access w scope.symbols)
          else (s.execute m (p.access w scope.symbols)).execute m' (q.access w scope.symbols)⟩ := by
  obtain ⟨one, added₁, straight₁, passed₁, run₁⟩ := emit_adds (w := w) straight direct low first
  obtain ⟨added₂, passed₂⟩ := emitBranch_adds rfl branch
  have passed := passed₁.trans passed₂
  obtain ⟨two, added₃, straight₂, passed₃, run₂⟩ :=
    emit_adds (w := w) straight' direct' (passed.high.trans low) second
  obtain ⟨added₄, passed₄⟩ := putLabel_adds label
  refine ⟨one.map .instruction ++ .instruction (.branch .bne name) ::
    (two.map .instruction ++ [.label name]), ?_, passed.trans (passed₃.trans passed₄),
    fun before rest s last => ?_⟩
  · rw [added₄, added₃, added₂, added₁]
    simp only [List.append_assoc, List.cons_append, List.nil_append]
  · have skips := Steps.skips (w := w) (m := .bne) name rfl straight₂
      (before ++ one.map .instruction)
      rest last (effects w one s)
    rw [List.append_assoc] at skips
    rw [← run₁, ← run₂]
    simp only [List.append_assoc, List.cons_append, List.nil_append]
    exact (Steps.straight straight₁ _ s).trans skips

variable (low : c.high = false)
  (distinct : cellAddress w scope.symbols v.name 0 ≠ cellAddress w scope.symbols v.name 1)

include low distinct

theorem incrementWide_runs (ok : incrementWide v scope c = .ok u d) :
    Passed c d ∧ Brings w c d fun s =>
      WordAssigned w scope.symbols v.name (wordAt w scope.symbols v.name s + 1) s := by
  obtain ⟨here, _, read, ok⟩ := bind_inv ok
  obtain ⟨same, passed⟩ := nextHere_adds read
  obtain ⟨_, _, first, ok⟩ := bind_inv ok
  obtain ⟨_, _, branch, ok⟩ := bind_inv ok
  obtain ⟨_, _, second, ok⟩ := bind_inv ok
  obtain ⟨code, added, passed', runs⟩ := skipping_runs (w := w) (passed.high.trans low) first branch
    second ok rfl rfl rfl rfl
  refine ⟨passed.trans passed', code, by rw [added, same], fun before s _ =>
    ⟨_, ?_, wordAssigned_increment distinct rfl⟩⟩
  have steps := runs before [] s List.not_mem_nil
  rw [List.append_nil] at steps
  exact steps

theorem decrementWide_runs (free : c.accInUse = false) (ok : decrementWide v scope c = .ok u d) :
    Passed c d ∧ Brings w c d fun s =>
      WordAssigned w scope.symbols v.name (wordAt w scope.symbols v.name s - 1) s := by
  obtain ⟨here, _, read, ok⟩ := bind_inv ok
  obtain ⟨same, passed⟩ := nextHere_adds read
  have ok := keepingA_unneeded (passed.acc.trans free) ok
  obtain ⟨_, _, first, ok⟩ := bind_inv ok
  obtain ⟨_, _, branch, ok⟩ := bind_inv ok
  obtain ⟨_, _, second, ok⟩ := bind_inv ok
  obtain ⟨_, _, label, ok⟩ := bind_inv ok
  obtain ⟨code, added, passed', runs⟩ := skipping_runs (w := w) (passed.high.trans low) first branch
    second label rfl rfl rfl rfl
  have passed := passed.trans passed'
  obtain ⟨lows, added', straight, passed', run⟩ :=
    emit_adds (w := w) rfl rfl (passed.high.trans low) ok
  have last : here ∉ Code.labelNames (lows.map .instruction) := by
    rw [Code.labelNames_map_instruction]
    exact List.not_mem_nil
  refine ⟨passed.trans passed', code ++ lows.map .instruction, ?_, fun before s _ =>
    ⟨_, (runs before _ s last).trans (.toEnd straight _), ?_⟩⟩
  · rw [added', added, same, List.append_assoc]
  · rw [run]
    exact wordAssigned_decrement distinct rfl

end Steps

end Backend6502.Lowering
