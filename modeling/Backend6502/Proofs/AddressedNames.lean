import Backend6502.Code.Assembler

/-!
# Names as operands

An operand that is a name, with or without a dot before it, is neither a numeral nor a compound
expression. It stands for the address that the assembler knows it by (`evaluate_name`). Capitals do
not change where a text has dots or digits (`upperChar_eq_iff`), so labels of one stream stay apart
from the names that all streams share.
-/

namespace Backend6502.Text

/-- No interval of one list meets one of the other. -/
def apart (first second : List (Nat × Nat)) : Bool :=
  first.all fun a => second.all fun b => a.2 < b.1 || b.2 < a.1

theorem inRanges_iff {ranges : List (Nat × Nat)} {c : Char} :
    inRanges ranges c = true ↔ ∃ range ∈ ranges, range.1 ≤ c.toNat ∧ c.toNat ≤ range.2 := by
  simp [inRanges]

theorem inRanges_of_apart {first second : List (Nat × Nat)} {c : Char}
    (disjoint : apart first second = true) (inside : inRanges first c = true) :
    inRanges second c = false := by
  rw [Bool.eq_false_iff, ne_eq, inRanges_iff]
  rintro ⟨b, there, low, high⟩
  obtain ⟨a, here, lower, higher⟩ := inRanges_iff.mp inside
  have separate := List.all_eq_true.mp (List.all_eq_true.mp disjoint a here) b there
  simp only [Bool.or_eq_true, decide_eq_true_eq] at separate
  omega

theorem trim_of_not_isBlank {cs : List Char} (plain : ∀ c ∈ cs, isBlank c = false) :
    trim cs = cs := by
  have keep {cs : List Char} (plain : ∀ c ∈ cs, isBlank c = false) : cs.dropWhile isBlank = cs := by
    cases cs with
    | nil => rfl
    | cons c rest => rw [List.dropWhile_cons, plain c List.mem_cons_self, if_neg Bool.false_ne_true]
  have backwards : ∀ c ∈ cs.reverse, isBlank c = false :=
    fun c inside => plain c (List.mem_reverse.mp inside)
  rw [trim, keep plain, keep backwards, List.reverse_reverse]

/-- Is it a digit or a punctuation mark before the letters? -/
def isLow (c : Char) : Bool :=
  0x20 < c.toNat && c.toNat < 0x41

/-- Such a character is the upper case of itself only. -/
theorem upperChar_eq_iff {c d : Char} (low : isLow d = true) : upperChar c = d ↔ c = d := by
  simp only [isLow, Bool.and_eq_true, decide_eq_true_eq] at low
  constructor
  · intro same
    have code := congrArg Char.toNat same
    unfold upperChar at same code
    split at same
    · next ascii =>
      have all : ∀ n < 0x80, (Char.ofNat n).toUpper.toNat < 0x41 →
          (Char.ofNat n).toUpper = Char.ofNat n := by decide
      have here := all c.toNat ascii
      rw [Char.ofNat_toNat, same] at here
      exact (here low.2).symm
    · next wide =>
      rw [if_neg wide] at code
      split at code
      · next row found =>
        have above : caseRows.all fun row => 0x40 < row.upper := by decide +kernel
        have here := of_decide_eq_true
          (List.all_eq_true.mp above row (List.mem_of_find?_eq_some found))
        unfold Char.ofNat at code
        by_cases valid : (row.upper + (c.toNat - row.first)).isValidChar
        · rw [dif_pos valid] at code
          have code : row.upper + (c.toNat - row.first) = d.toNat := code
          omega
        · rw [dif_neg valid] at code
          have code : 0 = d.toNat := code
          omega
      · omega
  · rintro rfl
    have all : ∀ n < 0x41, (Char.ofNat n).toUpper = Char.ofNat n := by decide
    have here := all c.toNat low.2
    rw [Char.ofNat_toNat] at here
    rw [upperChar, if_pos (by omega), here]

theorem toList_upper (text : String) : (upper text).toList = text.toList.map upperChar := by
  rw [upper, String.toList_ofList]

section Spellings

variable {text name : String} {c : Char}

theorem mem_iff_of_upper (same : upper text = upper name) (low : isLow c = true) :
    c ∈ text.toList ↔ c ∈ name.toList := by
  have kept (text : String) : c ∈ text.toList ↔ c ∈ (upper text).toList := by
    rw [toList_upper, List.mem_map]
    simp [upperChar_eq_iff low]
  rw [kept text, kept name, same]

/-- Whether a text starts with a digit or a mark is the same for all spellings. -/
theorem head?_iff_of_upper (same : upper text = upper name) (low : isLow c = true) :
    text.toList.head? = some c ↔ name.toList.head? = some c := by
  have kept (text : String) : text.toList.head? = some c ↔ (upper text).toList.head? = some c := by
    rw [toList_upper, List.head?_map, Option.map_eq_some_iff]
    simp [upperChar_eq_iff low]
  rw [kept text, kept name, same]

end Spellings

end Backend6502.Text

namespace Backend6502.Code.AddressExpr

/-- The characters that can start a name, and the dot. -/
def headRanges : List (Nat × Nat) :=
  (0x2e, 0x2e) :: (0x5f, 0x5f) :: Text.letterRanges

/-- The characters that start or take part in an operand of another kind than a name. -/
def markRanges : List (Nat × Nat) :=
  [(0x24, 0x25), (0x28, 0x29), (0x2b, 0x2d), (0x3c, 0x3c), (0x3e, 0x3e)]

theorem apart_headRanges :
    Text.apart headRanges ((0x30, 0x39) :: markRanges ++ Text.blankRanges) = true := by
  decide +kernel

theorem apart_digitRanges :
    Text.apart Text.digitRanges (markRanges ++ Text.blankRanges) = true := by
  decide +kernel

section Name

variable {cs : List Char} {c : Char}
variable {rest : List Char} {resolve : String → Option UInt16} {address : UInt16}

theorem inRanges_of_startsName (starts : startsName c = true) :
    Text.inRanges headRanges c = true := by
  rw [Text.inRanges_iff]
  rcases Bool.or_eq_true_iff.mp starts with letter | underscore
  · obtain ⟨range, inside, bounds⟩ := Text.inRanges_iff.mp letter
    exact ⟨range, List.mem_cons_of_mem _ (List.mem_cons_of_mem _ inside), bounds⟩
  · rw [eq_of_beq underscore]
    exact ⟨_, List.mem_cons_of_mem _ List.mem_cons_self, by decide⟩

/-- The characters of a name, with or without a dot. -/
def Plain (cs : List Char) : Prop :=
  ∀ c ∈ cs, Text.inRanges (markRanges ++ Text.blankRanges) c = false

theorem inRanges_of_head (head : Text.inRanges headRanges c = true) :
    Text.inRanges (markRanges ++ Text.blankRanges) c = false := by
  have apart := Text.inRanges_of_apart apart_headRanges head
  simp only [Text.inRanges, List.cons_append, List.any_cons, Bool.or_eq_false_iff] at apart ⊢
  exact apart.2

theorem plain_of_isName (name : isName cs = true) :
    Plain cs ∧ ∃ c rest, cs = c :: rest ∧ Text.inRanges headRanges c = true := by
  cases cs with
  | nil => cases name
  | cons c rest =>
    obtain ⟨starts, others⟩ := Bool.and_eq_true_iff.mp name
    have head := inRanges_of_startsName starts
    refine ⟨?_, c, rest, rfl, head⟩
    intro d inside
    rcases List.mem_cons.mp inside with rfl | inside
    · exact inRanges_of_head head
    · rcases Bool.or_eq_true_iff.mp (List.all_eq_true.mp others d inside) with starts | digit
      · exact inRanges_of_head (inRanges_of_startsName starts)
      · exact Text.inRanges_of_apart apart_digitRanges digit

theorem plain_of_withoutDot (name : isName (withoutDot cs) = true) :
    Plain cs ∧ ∃ c rest, cs = c :: rest ∧ Text.inRanges headRanges c = true := by
  unfold withoutDot at name
  split at name
  · next rest =>
    refine ⟨?_, '.', rest, rfl, by decide⟩
    intro d inside
    rcases List.mem_cons.mp inside with rfl | inside
    · decide
    · exact (plain_of_isName name).1 d inside
  · exact plain_of_isName name

theorem splitLast?_eq_none {p : Char → Bool} (without : ∀ c ∈ cs, p c = false) :
    splitLast? p cs = none := by
  induction cs with
  | nil => rfl
  | cons c rest ih =>
    rw [splitLast?, ih fun d inside => without d (List.mem_cons_of_mem _ inside)]
    simp [without c List.mem_cons_self]

theorem Plain.ne (plain : Plain cs) (mark : Char) (inside : c ∈ cs)
    (marks : Text.inRanges markRanges mark = true) : c ≠ mark := by
  rintro rfl
  have outside := plain c inside
  rw [Text.inRanges, List.any_append, Bool.or_eq_false_iff] at outside
  rw [Text.inRanges, outside.1] at marks
  cases marks

theorem Plain.isBlank (plain : Plain cs) (inside : c ∈ cs) : Text.isBlank c = false := by
  have outside := plain c inside
  rw [Text.inRanges, List.any_append, Bool.or_eq_false_iff] at outside
  exact outside.2

theorem digitIn?_eq_none (head : Text.inRanges headRanges c = true) :
    Text.digitIn? 10 c = none := by
  have apart := Text.inRanges_of_apart apart_headRanges head
  simp only [Text.inRanges, List.cons_append, List.any_cons, Bool.or_eq_false_iff,
    Bool.and_eq_false_iff, decide_eq_false_iff_not] at apart
  have outside : ¬ ('0' ≤ c ∧ c ≤ '9') := by
    rintro ⟨low, high⟩
    have low : 0x30 ≤ c.toNat := low
    have high : c.toNat ≤ 0x39 := high
    omega
  rw [Text.digitIn?, Text.digitValue?, if_neg outside]
  split
  · simp
  · split <;> simp

theorem numeral?_eq_none (plain : Plain (c :: rest)) (head : Text.inRanges headRanges c = true) :
    numeral? (c :: rest) = none := by
  have decimal : Text.signed? 10 32 (c :: rest) = none := by
    have minus := plain.ne '-' List.mem_cons_self (by decide)
    have plus := plain.ne '+' List.mem_cons_self (by decide)
    have unsigned : Text.splitSign (c :: rest) = (false, c :: rest) := by
      unfold Text.splitSign
      split <;> simp_all
    simp only [Text.signed?, unsigned]
    simp [Text.unsigned?, Text.digitsFrom?, digitIn?_eq_none head]
  have dollar := plain.ne '$' List.mem_cons_self (by decide)
  have percent := plain.ne '%' List.mem_cons_self (by decide)
  unfold numeral?
  split
  · simp_all
  · simp_all
  · next same =>
    cases same
    cases Text.inRanges_of_apart apart_headRanges head
  · exact decimal

theorem Plain.isUnsigned (plain : Plain cs) (inside : c ∈ cs) : (c == '+' || c == '-') = false := by
  have plus := plain.ne '+' inside (by decide)
  have minus := plain.ne '-' inside (by decide)
  simp [plus, minus]

/-- A text without blanks and without a sign behind its first character is not taken apart. -/
theorem evaluateUpTo_atom (unblank : ∀ d ∈ c :: rest, Text.isBlank d = false) (low : c ≠ '<')
    (high : c ≠ '>') (unsigned : ∀ d ∈ rest, (d == '+' || d == '-') = false) (bound : Nat) :
    evaluateUpTo resolve (bound + 1) (c :: rest) = evaluateAtom resolve (c :: rest) := by
  rw [evaluateUpTo, Text.trim_of_not_isBlank unblank]
  split
  · simp_all
  · simp_all
  · simp_all
  · rw [splitLast?, splitLast?_eq_none unsigned]
    cases c == '+' || c == '-' <;> rfl

theorem evaluateUpTo_plain (plain : Plain (c :: rest)) (bound : Nat) :
    evaluateUpTo resolve (bound + 1) (c :: rest) = evaluateAtom resolve (c :: rest) :=
  evaluateUpTo_atom (fun _ => plain.isBlank) (plain.ne '<' List.mem_cons_self (by decide))
    (plain.ne '>' List.mem_cons_self (by decide))
    (fun _ inside => plain.isUnsigned (List.mem_cons_of_mem _ inside)) bound

theorem evaluateUpTo_name (name : isName (withoutDot cs) = true) (bound : Nat) :
    evaluateUpTo resolve (bound + 1) cs = .ok address ↔
      resolve (String.ofList cs) = some address := by
  obtain ⟨plain, c, rest, rfl, head⟩ := plain_of_withoutDot name
  rw [evaluateUpTo_plain plain, evaluateAtom]
  simp only [numeral?_eq_none plain head]
  cases resolve (String.ofList (c :: rest)) with
  | some found => simp
  | none => simp [name]

theorem evaluate_name (name : isName (withoutDot cs) = true)
    (known : resolve (String.ofList cs) = some address) : evaluate resolve cs = .ok address :=
  (evaluateUpTo_name name _).mpr known

end Name

end Backend6502.Code.AddressExpr
