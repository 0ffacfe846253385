import Backend6502.Lowering.Context
import Backend6502.Proofs.Execution
import Backend6502.Proofs.Numerals

/-!
# Labels are placed once

A numbered label is read back from its text, so that labels with different numbers or of different
kinds have different texts. Numbers are counted up, and the code between two contexts places no
label twice if each construct places the labels of the number that it took, and those only.
-/

namespace Backend6502.Text

/-- A text without digits, a number and what follows it are told apart. -/
theorem split_number {stem stem' rest rest' : List Char} {n n' : Nat}
    (plain : ∀ c ∈ stem, c.isDigit = false) (plain' : ∀ c ∈ stem', c.isDigit = false)
    (ends : rest.takeWhile Char.isDigit = []) (ends' : rest'.takeWhile Char.isDigit = [])
    (same : stem ++ (Nat.toDigits 10 n ++ rest) = stem' ++ (Nat.toDigits 10 n' ++ rest')) :
    stem = stem' ∧ n = n' ∧ rest = rest' := by
  have digits (m : Nat) : ∀ c ∈ Nat.toDigits 10 m, c.isDigit = true := fun c inside =>
    Nat.isDigit_of_mem_toDigits (by decide) (by decide) inside
  have stemOf (stem rest : List Char) (m : Nat) (plain : ∀ c ∈ stem, c.isDigit = false) :
      (stem ++ (Nat.toDigits 10 m ++ rest)).takeWhile (!·.isDigit) = stem := by
    have stops : (Nat.toDigits 10 m ++ rest).takeWhile (!·.isDigit) = [] := by
      cases form : Nat.toDigits 10 m with
      | nil => exact absurd form Nat.toDigits_ne_nil
      | cons c others =>
        have first := digits m c (form ▸ List.mem_cons_self)
        simp [first]
    rw [List.takeWhile_append_of_pos fun c inside => by simp [plain c inside], stops,
      List.append_nil]
  have numberOf {rest : List Char} (m : Nat) (ends : rest.takeWhile Char.isDigit = []) :
      (Nat.toDigits 10 m ++ rest).takeWhile Char.isDigit = Nat.toDigits 10 m := by
    rw [List.takeWhile_append_of_pos (digits m), ends, List.append_nil]
  have stems : stem = stem' := by
    rw [← stemOf stem rest n plain, same, stemOf stem' rest' n' plain']
  rw [stems, List.append_cancel_left_eq] at same
  have numbers : Nat.toDigits 10 n = Nat.toDigits 10 n' := by
    rw [← numberOf n ends, same, numberOf n' ends']
  rw [numbers, List.append_cancel_left_eq] at same
  refine ⟨stems, ?_, same⟩
  have read := digitsFrom?_toDigits n
  rw [numbers, digitsFrom?_toDigits n'] at read
  exact (Option.some.inj read).symm

end Backend6502.Text

namespace Backend6502.Lowering

open Code (Line labelNames)

variable {c d e : Context}

namespace Label

def isNumbered : Label → Bool
  | .source _ => false
  | _ => true

def stem : Label → String
  | .forStart _ => ".for"
  | .forUpdate _ => ".forupdate"
  | .forEnd _ => ".forend"
  | .whileStart _ => ".while"
  | .whileEnd _ => ".whileend"
  | .doStart _ => ".dowhile"
  | .doCond _ => ".dowhilecond"
  | .doEnd _ => ".dowhileend"
  | .otherwise _ => ".else"
  | .ifEnd _ => ".ifend"
  | .switchEnd _ => ".switchend"
  | .switchBody _ _ => ".switchbody"
  | .switchNext _ _ => ".switchnext"
  | .pastCond _ => ".cond"
  | .here _ => ".here"
  | .source name => "." ++ name

def number : Label → Nat
  | .forStart n | .forUpdate n | .forEnd n | .whileStart n | .whileEnd n | .doStart n | .doCond n
  | .doEnd n | .otherwise n | .ifEnd n | .switchEnd n | .switchBody n _ | .switchNext n _
  | .pastCond n | .here n => n
  | .source _ => 0

def arm : Label → Nat
  | .switchBody _ k | .switchNext _ k => k
  | _ => 0

def ending : Label → List Char
  | .switchBody _ k | .switchNext _ k => '_' :: Nat.toDigits 10 k
  | _ => []

def ofParts? (stem : String) (n k : Nat) : Option Label :=
  match stem with
  | ".for" => some (.forStart n)
  | ".forupdate" => some (.forUpdate n)
  | ".forend" => some (.forEnd n)
  | ".while" => some (.whileStart n)
  | ".whileend" => some (.whileEnd n)
  | ".dowhile" => some (.doStart n)
  | ".dowhilecond" => some (.doCond n)
  | ".dowhileend" => some (.doEnd n)
  | ".else" => some (.otherwise n)
  | ".ifend" => some (.ifEnd n)
  | ".switchend" => some (.switchEnd n)
  | ".switchbody" => some (.switchBody n k)
  | ".switchnext" => some (.switchNext n k)
  | ".cond" => some (.pastCond n)
  | ".here" => some (.here n)
  | _ => none

variable {l m : Label}

section

variable (numbered : l.isNumbered = true)

include numbered

theorem toList_text : l.text.toList = l.stem.toList ++ (Nat.toDigits 10 l.number ++ l.ending) := by
  have digits (n : Nat) : (toString n).toList = Nat.toDigits 10 n := Nat.toList_repr
  have short (stem : String) (n : Nat) :
      (stem ++ toString n).toList = stem.toList ++ (Nat.toDigits 10 n ++ []) := by
    rw [List.append_nil, String.toList_append, digits]
  have long (stem : String) (n k : Nat) : (stem ++ toString n ++ "_" ++ toString k).toList =
      stem.toList ++ (Nat.toDigits 10 n ++ '_' :: Nat.toDigits 10 k) := by
    rw [String.toList_append, String.toList_append, String.toList_append, digits, digits,
      List.append_assoc, List.append_assoc]
    rfl
  cases l with
  | source => cases numbered
  | switchBody n k | switchNext n k => exact long _ n k
  | _ => exact short _ _

theorem ofParts?_stem : ofParts? l.stem l.number l.arm = some l := by
  cases l <;> first | rfl | cases numbered

theorem isDigit_stem : ∀ c ∈ l.stem.toList, c.isDigit = false := by
  have all : l.stem.toList.all (fun c => !c.isDigit) = true := by
    cases l with
    | source => cases numbered
    | _ =>
      rw [stem]
      decide +kernel
  simpa using all

end

theorem takeWhile_ending (l : Label) : l.ending.takeWhile Char.isDigit = [] := by
  cases l <;> rfl

theorem arm_eq (l : Label) : l.arm = (Text.digitsFrom? 10 0 (l.ending.drop 1)).getD 0 := by
  cases l with
  | switchBody n k | switchNext n k =>
    rw [ending, List.drop_one, List.tail_cons, Text.digitsFrom?_toDigits, arm, Option.getD_some]
  | _ => rfl

theorem text_injective (numbered : l.isNumbered = true) (alsoNumbered : m.isNumbered = true)
    (same : l.text = m.text) : l = m := by
  have parts : l.stem.toList ++ (Nat.toDigits 10 l.number ++ l.ending) =
      m.stem.toList ++ (Nat.toDigits 10 m.number ++ m.ending) := by
    rw [← toList_text numbered, ← toList_text alsoNumbered, same]
  obtain ⟨stems, numbers, endings⟩ := Text.split_number (isDigit_stem numbered)
    (isDigit_stem alsoNumbered) l.takeWhile_ending m.takeWhile_ending parts
  have arms : l.arm = m.arm := by rw [arm_eq, arm_eq, endings]
  have back := ofParts?_stem numbered
  rw [String.toList_injective stems, numbers, arms, ofParts?_stem alsoNumbered] at back
  exact (Option.some.inj back).symm

/-- Was the number of the label taken between two contexts? -/
def Within (c d : Context) : Label → Prop
  | .forStart n | .forUpdate n | .forEnd n => c.forCount < n ∧ n ≤ d.forCount
  | .whileStart n | .whileEnd n | .doStart n | .doCond n | .doEnd n =>
    c.whileCount < n ∧ n ≤ d.whileCount
  | .otherwise n | .ifEnd n | .switchEnd n | .switchBody n _ | .switchNext n _ | .pastCond n
  | .here n => c.ifCount < n ∧ n ≤ d.ifCount
  | .source _ => False

theorem Within.isNumbered {c d : Context} (within : l.Within c d) : l.isNumbered = true := by
  cases l <;> first | rfl | exact within.elim

end Label

/-- Numbers have been taken from the first context to the second one. -/
structure Counted (c d : Context) : Prop where
  forCount : c.forCount ≤ d.forCount
  ifCount : c.ifCount ≤ d.ifCount
  whileCount : c.whileCount ≤ d.whileCount

theorem Counted.trans (first : Counted c d) (second : Counted d e) :
    Counted c e :=
  ⟨Nat.le_trans first.forCount second.forCount, Nat.le_trans first.ifCount second.ifCount,
    Nat.le_trans first.whileCount second.whileCount⟩

theorem Counted.of_eq (forCount : d.forCount = c.forCount)
    (ifCount : d.ifCount = c.ifCount) (whileCount : d.whileCount = c.whileCount) : Counted c d :=
  ⟨Nat.le_of_eq forCount.symm, Nat.le_of_eq ifCount.symm, Nat.le_of_eq whileCount.symm⟩

structure Abreast (c c' : Context) : Prop where
  code : c'.code = c.code
  forCount : c'.forCount = c.forCount
  ifCount : c'.ifCount = c.ifCount
  whileCount : c'.whileCount = c.whileCount

theorem Abreast.within {c' d' : Context} {l : Label} (before : Abreast c c')
    (after : Abreast d d') (within : l.Within c d) : l.Within c' d' := by
  cases l with
  | source => exact within
  | _ =>
    simp only [Label.Within, before.forCount, before.ifCount, before.whileCount, after.forCount,
      after.ifCount, after.whileCount]
    exact within

namespace Label.Within

variable {c d e : Context} {l : Label}

theorem later (within : l.Within c d) (counted : Counted d e) : l.Within c e := by
  cases l with
  | forStart | forUpdate | forEnd => exact ⟨within.1, Nat.le_trans within.2 counted.forCount⟩
  | whileStart | whileEnd | doStart | doCond | doEnd =>
    exact ⟨within.1, Nat.le_trans within.2 counted.whileCount⟩
  | source => exact within.elim
  | _ => exact ⟨within.1, Nat.le_trans within.2 counted.ifCount⟩

theorem earlier (within : l.Within d e) (counted : Counted c d) : l.Within c e := by
  cases l with
  | forStart | forUpdate | forEnd =>
    exact ⟨Nat.lt_of_le_of_lt counted.forCount within.1, within.2⟩
  | whileStart | whileEnd | doStart | doCond | doEnd =>
    exact ⟨Nat.lt_of_le_of_lt counted.whileCount within.1, within.2⟩
  | source => exact within.elim
  | _ => exact ⟨Nat.lt_of_le_of_lt counted.ifCount within.1, within.2⟩

/-- No number is taken twice. -/
theorem not_again (within : l.Within c d) (again : l.Within d e) : False := by
  cases l with
  | source => exact within
  | _ => exact absurd again.1 (Nat.not_lt.mpr within.2)

end Label.Within

namespace Context

def countFor (c : Context) : Context :=
  { c with forCount := c.forCount + 1 }

def countIf (c : Context) : Context :=
  { c with ifCount := c.ifCount + 1 }

def countWhile (c : Context) : Context :=
  { c with whileCount := c.whileCount + 1 }

end Context

section Counting

variable {scope : Scope} {n : Nat}

theorem nextFor_eq_ok (ok : nextFor scope c = .ok n d) : n = c.forCount + 1 ∧ d = c.countFor := by
  cases ok
  exact ⟨rfl, rfl⟩

theorem nextIf_eq_ok (ok : nextIf scope c = .ok n d) : n = c.ifCount + 1 ∧ d = c.countIf := by
  cases ok
  exact ⟨rfl, rfl⟩

theorem nextWhile_eq_ok (ok : nextWhile scope c = .ok n d) :
    n = c.whileCount + 1 ∧ d = c.countWhile := by
  cases ok
  exact ⟨rfl, rfl⟩

end Counting

/-- How often a label has been placed. -/
def Context.times (c : Context) (name : String) : Nat :=
  (labelNames c.code).count name

/-- May a label with this text be new between two contexts? -/
def Opens (c d : Context) (name : String) : Prop :=
  ∃ l : Label, l.text = name ∧ l.Within c d

/-- How often a label may be placed between two contexts. -/
noncomputable def room (c d : Context) (name : String) : Nat :=
  open Classical in if Opens c d name then 1 else 0

theorem room_add (first : Counted c d) (second : Counted d e) (name : String) :
    room c d name + room d e name ≤ room c e name := by
  unfold room
  by_cases before : Opens c d name
  · obtain ⟨l, text, within⟩ := before
    have whole : Opens c e name := ⟨l, text, within.later second⟩
    have closed : ¬Opens d e name := by
      rintro ⟨m, same, again⟩
      cases Label.text_injective within.isNumbered again.isNumbered (text.trans same.symm)
      exact within.not_again again
    rw [if_pos whole, if_neg closed]
    split <;> omega
  · rw [if_neg before]
    by_cases after : Opens d e name
    · obtain ⟨l, text, within⟩ := after
      have whole : Opens c e name := ⟨l, text, within.earlier first⟩
      rw [if_pos whole]
      split <;> omega
    · rw [if_neg after]
      omega

/-- Labels with numbers that were taken between two contexts may be placed once. -/
theorem count_le_room {labels : List Label} (distinct : labels.Nodup)
    (within : ∀ l ∈ labels, l.Within c d) (name : String) :
    (labels.map Label.text).count name ≤ room c d name := by
  induction labels with
  | nil => exact Nat.zero_le _
  | cons l rest ih =>
    obtain ⟨new, others⟩ := List.nodup_cons.mp distinct
    have inside := within l List.mem_cons_self
    have later : ∀ m ∈ rest, m.Within c d := fun m mem => within m (List.mem_cons_of_mem l mem)
    rw [List.map_cons, List.count_cons]
    by_cases same : l.text = name
    · have absent : (rest.map Label.text).count name = 0 := by
        rw [List.count_eq_zero, ← same]
        rintro again
        obtain ⟨m, mem, text⟩ := List.mem_map.mp again
        cases Label.text_injective (later m mem).isNumbered inside.isNumbered text
        exact new mem
      have opens : Opens c d name := ⟨l, same, inside⟩
      rw [absent, room, if_pos opens]
      split <;> omega
    · have other : (l.text == name) = false := beq_false_of_ne same
      rw [other, if_neg Bool.false_ne_true]
      exact ih others later

/--
The code between two contexts places its own labels, as often as they are listed, and besides only
labels with numbers that were taken in between, each once.
-/
structure Labelled (own : List String) (c d : Context) : Prop where
  grows : c.code <+: d.code
  counted : Counted c d
  once : ∀ name, d.times name ≤ c.times name + own.count name + room c d name

namespace Labelled

variable {own others : List String} {c d e : Context}
variable {lines : List Line} {name : String} {labels : List Label}

theorem plain (code : d.code = c.code ++ lines) (none : labelNames lines = [])
    (counted : Counted c d) : Labelled [] c d := by
  refine ⟨⟨lines, code.symm⟩, counted, fun name => ?_⟩
  rw [Context.times, code, Code.labelNames_append, none, List.append_nil, List.count_nil]
  exact Nat.le_add_right_of_le (Nat.le_refl _)

theorem label (code : d.code = c.code ++ [.label name]) (counted : Counted c d) :
    Labelled [name] c d := by
  refine ⟨⟨_, code.symm⟩, counted, fun other => ?_⟩
  have placed : labelNames d.code = labelNames c.code ++ [name] := by
    rw [code, Code.labelNames_append]
    rfl
  rw [Context.times, placed, List.count_append]
  exact Nat.le_add_right _ _

theorem trans (first : Labelled own c d) (second : Labelled others d e) :
    Labelled (own ++ others) c e := by
  refine ⟨first.grows.trans second.grows, first.counted.trans second.counted, fun name => ?_⟩
  have before := first.once name
  have after := second.once name
  have whole := room_add first.counted second.counted name
  rw [List.count_append]
  omega

theorem congr {c' d' : Context} (labelled : Labelled own c d) (before : Abreast c c')
    (after : Abreast d d') : Labelled own c' d' := by
  have counted := labelled.counted
  have rooms (name : String) : room c d name ≤ room c' d' name := by
    unfold room
    split
    · next opens =>
      obtain ⟨l, text, within⟩ := opens
      have opens : Opens c' d' name := ⟨l, text, before.within after within⟩
      exact Nat.le_of_eq (if_pos opens).symm
    · exact Nat.zero_le _
  refine ⟨?_, ⟨?_, ?_, ?_⟩, fun name => ?_⟩
  · rw [before.code, after.code]
    exact labelled.grows
  · rw [before.forCount, after.forCount]
    exact counted.forCount
  · rw [before.ifCount, after.ifCount]
    exact counted.ifCount
  · rw [before.whileCount, after.whileCount]
    exact counted.whileCount
  · have once := labelled.once name
    have room := rooms name
    unfold Context.times at once ⊢
    rw [before.code, after.code]
    omega

theorem perm (labelled : Labelled own c d) (same : own.Perm others) : Labelled others c d :=
  ⟨labelled.grows, labelled.counted, fun name => same.count_eq name ▸ labelled.once name⟩

section

variable (distinct : labels.Nodup)
  (within : ∀ l ∈ labels, l.Within c d)
  (code : d.code = c.code)
  (counted : Counted c d)

include distinct within code counted

/-- A construct places the labels of a number that it took, besides those of its parts. -/
theorem opening (rest : Labelled (labels.map Label.text ++ own) d e) : Labelled own c e := by
  refine ⟨code ▸ rest.grows, counted.trans rest.counted, fun name => ?_⟩
  have mine := count_le_room distinct within name
  have after := rest.once name
  have whole := room_add counted rest.counted name
  have same : d.times name = c.times name := by rw [Context.times, code, Context.times]
  rw [List.count_append] at after
  omega

/-- A construct places the labels of a number that it took. -/
theorem opened (rest : Labelled (labels.map Label.text) d e) : Labelled [] c e :=
  opening distinct within code counted ((List.append_nil _).symm ▸ rest)

end

/-- From the first line on, every label is one of the own ones or carries a number. -/
theorem mem_cases (labelled : Labelled own c d) (begins : c.code = [])
    (inside : name ∈ labelNames d.code) : name ∈ own ∨ Opens c d name := by
  have once := labelled.once name
  have placed : 0 < d.times name := List.count_pos_iff.mpr inside
  have before : c.times name = 0 := by
    rw [Context.times, begins]
    rfl
  by_cases opens : Opens c d name
  · exact .inr opens
  · rw [room, if_neg opens] at once
    exact .inl (List.count_pos_iff.mp (by omega))

/-- Labels are placed once if those of the own ones are, and these carry no numbers. -/
theorem nodup_of_apart (labelled : Labelled own c d) (begins : c.code = []) (distinct : own.Nodup)
    (apart : ∀ name ∈ own, ¬Opens c d name) : (labelNames d.code).Nodup := by
  rw [List.nodup_iff_count]
  intro name
  have once := labelled.once name
  have before : c.times name = 0 := by
    rw [Context.times, begins]
    rfl
  have mine := List.nodup_iff_count.mp distinct name
  change d.times name ≤ 1
  by_cases opens : Opens c d name
  · have other : own.count name = 0 :=
      List.count_eq_zero.mpr fun inside => apart name inside opens
    rw [room, if_pos opens] at once
    omega
  · rw [room, if_neg opens] at once
    omega

/-- Among the lines in between no label comes twice. -/
theorem nodup (labelled : Labelled [] c d) (code : d.code = c.code ++ lines) :
    (labelNames lines).Nodup := by
  rw [List.nodup_iff_count]
  intro name
  have once := labelled.once name
  have whole : d.times name = c.times name + (labelNames lines).count name := by
    rw [Context.times, Context.times, code, Code.labelNames_append, List.count_append]
  have small : room c d name ≤ 1 := by
    unfold room
    split <;> omega
  rw [List.count_nil] at once
  omega

end Labelled

end Backend6502.Lowering
