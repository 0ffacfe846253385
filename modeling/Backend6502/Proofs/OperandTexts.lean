import Backend6502.Lowering.Place
import Backend6502.Proofs.AddressedNames
import Backend6502.Proofs.Numerals
import Backend6502.Proofs.Placement
import Backend6502.Proofs.VariableLayout

/-!
# Texts of operands

Code generation writes an operand for a variable as text: its name, with an offset, an index
register or brackets. The assembler takes the text apart again and comes to the address of the name
plus the offset, whatever it knows names by (`evaluate_operand`). An offset that is negative or too
large is no number to the assembler, so such an operand is refused.

The optimizer and the assembler read an immediate operand each in its own way. An operand that both
of them read stands for the same byte (`operandBytes_of_immediate?`).
-/

namespace Backend6502.Code.AddressExpr

open Assembler (ok_of_bind)

variable {c : Char} {resolve : String → Option UInt16} {n : Nat} {cs : List Char}

section Digits

theorem inRanges_of_isDigit (digit : c.isDigit = true) :
    Text.inRanges [(0x30, 0x39)] c = true := by
  rw [Text.inRanges_iff]
  refine ⟨_, List.mem_singleton_self _, ?_⟩
  have bounds : 0x30 ≤ c.val ∧ c.val ≤ 0x39 := by simpa [Char.isDigit] using digit
  exact ⟨UInt32.le_iff_toNat_le.mp bounds.1, UInt32.le_iff_toNat_le.mp bounds.2⟩

theorem startsName_of_isDigit (digit : c.isDigit = true) : startsName c = false := by
  rw [Bool.eq_false_iff]
  intro starts
  have apart := Text.inRanges_of_apart apart_headRanges (inRanges_of_startsName starts)
  have inside := inRanges_of_isDigit digit
  simp only [Text.inRanges, List.cons_append, List.any_cons, Bool.or_eq_false_iff] at apart inside
  simp [apart.1] at inside

theorem isDigit_of_mem_toString (inside : c ∈ (toString n).toList) : c.isDigit = true := by
  rw [show (toString n).toList = Nat.toDigits 10 n from Nat.toList_repr] at inside
  exact Nat.isDigit_of_mem_toDigits (by decide) (by decide) inside

theorem plain_toString (n : Nat) : Plain (toString n).toList := by
  intro c inside
  have digit := inRanges_of_isDigit (isDigit_of_mem_toString inside)
  exact Text.inRanges_of_apart rfl digit

theorem exists_toString (n : Nat) :
    ∃ c rest, (toString n).toList = c :: rest ∧ c.isDigit = true := by
  cases same : (toString n).toList with
  | nil => exact absurd (Nat.toList_repr.symm.trans same) Nat.toDigits_ne_nil
  | cons c rest => exact ⟨c, rest, rfl, isDigit_of_mem_toString (same ▸ List.mem_cons_self)⟩

theorem numeral?_toString (n : Nat) :
    numeral? (toString n).toList = Text.fitSigned? 32 false n := by
  rw [← Text.signed?_toString_eq]
  have digit {c : Char} (inside : c ∈ (toString n).toList) (other : c.isDigit = false) : False := by
    rw [isDigit_of_mem_toString inside] at other
    cases other
  unfold numeral?
  split
  · next same => exact (digit (same ▸ List.mem_cons_self) rfl).elim
  · next same => exact (digit (same ▸ List.mem_cons_self) rfl).elim
  · next same =>
    exact (digit (same ▸ List.mem_cons_of_mem _ List.mem_cons_self) rfl).elim
  · rfl

/-- A number stands for itself, unless it is too large or known as a name. -/
theorem toNat_of_evaluateUpTo {bound : Nat} {value : UInt16} (unknown : resolve (toString n) = none)
    (ok : evaluateUpTo resolve (bound + 1) (toString n).toList = .ok value) : value.toNat = n := by
  have atom : evaluateUpTo resolve (bound + 1) (toString n).toList =
      evaluateAtom resolve (toString n).toList := by
    obtain ⟨c, rest, same, -⟩ := exists_toString n
    have plain := plain_toString n
    rw [same] at plain ⊢
    exact evaluateUpTo_plain plain bound
  rw [atom, evaluateAtom, numeral?_toString, String.ofList_toList, unknown, Text.fitSigned?,
    if_neg Bool.false_ne_true] at ok
  split at ok
  · next value found =>
    split at found
    · cases found
      split at ok
      · cases ok
      · next fits =>
        cases ok
        have small : n < 65536 := by omega
        have whole : ((n : Int) % 65536).toNat = n := by omega
        change (UInt16.ofNat ((n : Int) % 65536).toNat).toNat = n
        rw [whole]
        exact UInt16.toNat_ofNat_of_lt' small
    · cases found
  · split at ok
    · next known => cases known
    · split at ok <;> cases ok

end Digits

section Sums

variable {left right : List Char} {sign : Char}

theorem splitLast?_append {p : Char → Bool} (left : List Char) (marks : p sign = true)
    (without : ∀ c ∈ right, p c = false) :
    splitLast? p (left ++ sign :: right) = some (left, sign, right) := by
  induction left with
  | nil => rw [List.nil_append, splitLast?, splitLast?_eq_none without, if_pos marks]
  | cons c left ih => rw [List.cons_append, splitLast?, ih]

theorem evaluateUpTo_signed (bound : Nat)
    (unblank : ∀ d ∈ c :: left ++ sign :: right, Text.isBlank d = false) (low : c ≠ '<')
    (high : c ≠ '>') (signs : (sign == '+' || sign == '-') = true)
    (last : ∀ d ∈ right, (d == '+' || d == '-') = false) :
    evaluateUpTo resolve (bound + 1) (c :: left ++ sign :: right) = do
      let base ← evaluateUpTo resolve bound (c :: left)
      let offset ← evaluateUpTo resolve bound right
      return if sign == '-' then base - offset else base + offset := by
  have cut := splitLast?_append (p := fun c => c == '+' || c == '-') (c :: left) signs last
  rw [evaluateUpTo, Text.trim_of_not_isBlank unblank]
  split
  · simp_all
  · simp_all
  · simp_all
  · rw [cut]

theorem startsName_dot : startsName '.' = false := by
  decide +kernel

section Names

variable {address : UInt16} (name : isName cs = true)

include name

theorem isName_withoutDot : isName (withoutDot cs) = true := by
  cases cs with
  | nil => cases name
  | cons c rest =>
    unfold withoutDot
    split
    · next same =>
      cases same
      rw [isName, startsName_dot] at name
      cases name
    · exact name

theorem evaluateUpTo_name_signed (resolve : String → Option UInt16) (middle : List Char)
    (sign : Char) (signs : (sign == '+' || sign == '-') = true)
    (unblank : ∀ d ∈ middle ++ sign :: right, Text.isBlank d = false)
    (last : ∀ d ∈ right, (d == '+' || d == '-') = false) (bound : Nat) :
    evaluateUpTo resolve (bound + 1) (cs ++ (middle ++ sign :: right)) = do
      let base ← evaluateUpTo resolve bound (cs ++ middle)
      let offset ← evaluateUpTo resolve bound right
      return if sign == '-' then base - offset else base + offset := by
  obtain ⟨plain, c, rest, rfl, -⟩ := plain_of_isName name
  have whole : ∀ d ∈ c :: rest ++ (middle ++ sign :: right), Text.isBlank d = false :=
    List.forall_mem_append.mpr ⟨fun _ => plain.isBlank, unblank⟩
  rw [← List.append_assoc] at whole ⊢
  exact evaluateUpTo_signed bound whole (plain.ne '<' List.mem_cons_self (by decide))
    (plain.ne '>' List.mem_cons_self (by decide)) signs last

/-- A name and a number stand for their sum. -/
theorem evaluate_sum (unknown : resolve (toString n) = none)
    (ok : evaluate resolve (cs ++ '+' :: (toString n).toList) = .ok address) :
    ∃ base offset, resolve (.ofList cs) = some base ∧ offset.toNat = n ∧
      address = base + offset := by
  have digits := plain_toString n
  have cut := evaluateUpTo_name_signed name resolve [] '+' rfl
    (List.forall_mem_cons.mpr ⟨rfl, fun _ => digits.isBlank⟩) fun _ => digits.isUnsigned
  obtain ⟨base, first, ok⟩ := ok_of_bind ((cut _).symm.trans ok)
  obtain ⟨offset, second, ok⟩ := ok_of_bind ok
  cases ok
  rw [List.length_append, List.length_cons, ← Nat.add_assoc] at first second
  rw [List.append_nil] at first
  exact ⟨base, offset, (evaluateUpTo_name (isName_withoutDot name) _).mp first,
    toNat_of_evaluateUpTo unknown second, rfl⟩

theorem dot_notMem_of_isName : '.' ∉ cs := by
  have digit : Text.isDigit '.' = false := rfl
  intro inside
  cases cs with
  | nil => cases inside
  | cons c rest =>
    obtain ⟨starts, others⟩ := Bool.and_eq_true_iff.mp name
    rcases List.mem_cons.mp inside with rfl | later
    · rw [startsName_dot] at starts
      cases starts
    · have here := List.all_eq_true.mp others '.' later
      simp only [startsName_dot, digit] at here
      cases here

/-- A name and a sign are no sum. -/
theorem evaluateUpTo_hanging (bound : Nat) :
    evaluateUpTo resolve bound (cs ++ ['+']) ≠ .ok address := by
  intro ok
  cases bound with
  | zero => cases ok
  | succ bound =>
    have cut := evaluateUpTo_name_signed name resolve [] '+' rfl
      (List.forall_mem_singleton.mpr rfl) (List.forall_mem_nil _)
    obtain ⟨base, -, ok⟩ := ok_of_bind ((cut bound).symm.trans ok)
    obtain ⟨offset, missing, -⟩ := ok_of_bind ok
    cases bound <;> cases missing

/-- A name and a number with a minus sign are no sum: nothing stands between the signs. -/
theorem evaluate_sum_negative :
    evaluate resolve (cs ++ '+' :: '-' :: (toString n).toList) ≠ .ok address := by
  intro ok
  have digits := plain_toString n
  have cut := evaluateUpTo_name_signed name resolve ['+'] '-' rfl
    (List.forall_mem_cons.mpr ⟨rfl, List.forall_mem_cons.mpr ⟨rfl, fun _ => digits.isBlank⟩⟩)
    fun _ => digits.isUnsigned
  obtain ⟨base, first, -⟩ := ok_of_bind ((cut _).symm.trans ok)
  exact evaluateUpTo_hanging name _ first

end Names

end Sums

section Decorations

variable {register : Char}

def Bare (cs : List Char) : Prop :=
  ∀ c ∈ cs, Text.isBlank c = false ∧ c ≠ ',' ∧ c ≠ '(' ∧ c ≠ ')'

theorem Plain.bare (plain : Plain cs) : Bare cs :=
  fun _ inside => ⟨plain.isBlank inside, plain.ne ',' inside (by decide),
    plain.ne '(' inside (by decide), plain.ne ')' inside (by decide)⟩

theorem Bare.nil : Bare [] := by
  intro c inside
  cases inside

theorem Bare.cons (other : Text.isBlank c = false ∧ c ≠ ',' ∧ c ≠ '(' ∧ c ≠ ')')
    (bare : Bare cs) : Bare (c :: cs) :=
  List.forall_mem_cons.mpr ⟨other, bare⟩

theorem Bare.append {first second : List Char} (high : Bare first) (low : Bare second) :
    Bare (first ++ second) := by
  intro c inside
  rcases List.mem_append.mp inside with up | down
  · exact high c up
  · exact low c down

section

variable (bare : Bare cs)

include bare

theorem Bare.trim : Text.trim cs = cs :=
  Text.trim_of_not_isBlank fun c inside => (bare c inside).1

theorem Bare.beforeComma : beforeComma cs = cs := by
  have whole : (cs ++ []).takeWhile (· != ',') = cs ++ [].takeWhile (· != ',') :=
    List.takeWhile_append_of_pos fun c inside => by simp [(bare c inside).2.1]
  simpa [AddressExpr.beforeComma] using whole

theorem Bare.withoutOpening : withoutOpening cs = cs := by
  unfold AddressExpr.withoutOpening
  split
  · exact absurd rfl (bare '(' List.mem_cons_self).2.2.1
  · rfl

theorem Bare.withoutClosing : withoutClosing cs = cs := by
  unfold AddressExpr.withoutClosing
  split
  · next same =>
    have inside : ')' ∈ cs := List.mem_reverse.mp (same ▸ List.mem_cons_self)
    exact absurd rfl (bare ')' inside).2.2.2
  · rfl

/-- An address with nothing around it. -/
theorem ofOperand_bare : ofOperand cs = cs := by
  have last : cs.getLast? ≠ some ')' := fun same =>
    (bare ')' (List.mem_of_getLast? same)).2.2.2 rfl
  have whole : splitLast? (· == ',') cs = none :=
    splitLast?_eq_none fun c inside => by simp [(bare c inside).2.1]
  simp only [ofOperand, bare.trim, if_neg last, whole, bare.withoutOpening, bare.withoutClosing,
    bare.beforeComma]

end

theorem ofOperand_register {inner : List Char} (unblank : ∀ c ∈ inner, Text.isBlank c = false)
    (index : Bare [register]) : ofOperand (inner ++ [',', register]) =
      Text.trim (beforeComma (withoutClosing (withoutOpening inner))) := by
  obtain ⟨visible, notComma, -, notClosing⟩ := index register List.mem_cons_self
  have comma : Text.isBlank ',' = false := rfl
  have whole : Text.trim (inner ++ [',', register]) = inner ++ [',', register] := by
    refine Text.trim_of_not_isBlank fun c inside => ?_
    simp only [List.mem_append, List.mem_cons, List.not_mem_nil, or_false] at inside
    rcases inside with inside | rfl | rfl
    · exact unblank c inside
    · exact comma
    · exact visible
  have last : (inner ++ [',', register]).getLast? ≠ some ')' := by simp [notClosing]
  have cut : splitLast? (· == ',') (inner ++ [',', register]) = some (inner, ',', [register]) :=
    splitLast?_append inner rfl fun c inside => by simp_all
  simp only [ofOperand, whole, if_neg last, cut]

theorem ofOperand_indexed (bare : Bare cs) (index : Bare [register]) :
    ofOperand (cs ++ [',', register]) = cs := by
  rw [ofOperand_register (fun c inside => (bare c inside).1) index, bare.withoutOpening,
    bare.withoutClosing, bare.beforeComma, bare.trim]

theorem ofOperand_pointed (bare : Bare cs) (index : Bare [register]) :
    ofOperand ('(' :: (cs ++ [')']) ++ [',', register]) = cs := by
  have brackets : Text.isBlank '(' = false ∧ Text.isBlank ')' = false := ⟨rfl, rfl⟩
  have unblank : ∀ c ∈ '(' :: (cs ++ [')']), Text.isBlank c = false := by
    intro c inside
    simp only [List.mem_append, List.mem_cons, List.not_mem_nil, or_false] at inside
    rcases inside with rfl | inside | rfl
    · exact brackets.1
    · exact (bare c inside).1
    · exact brackets.2
  have inner : withoutClosing (cs ++ [')']) = cs := by simp [withoutClosing]
  rw [ofOperand_register unblank index, withoutOpening, inner, bare.beforeComma, bare.trim]

end Decorations

end Backend6502.Code.AddressExpr

namespace Backend6502.Lowering

open Code AddressExpr
open Cpu (Mode)
open Symbols (Table addressOf toNat_addressOf)

variable {resolve : String → Option UInt16} {address : UInt16}

def Place.offset : Place → Int64
  | .cell _ _ offset _ => offset
  | _ => 0

section Named

variable {name : String} (names : isName name.toList = true)

include names

theorem evaluate_alone {text : String} (alone : ofOperand text.toList = name.toList)
    (ok : evaluate resolve (ofOperand text.toList) = .ok address) :
    ∃ base, resolve name = some base ∧ address = base + addressOf 0 := by
  rw [alone] at ok
  have known := (evaluateUpTo_name (isName_withoutDot names) _).mp ok
  rw [String.ofList_toList] at known
  exact ⟨address, known, (UInt16.add_zero address).symm⟩

theorem evaluate_offset (unknown : ∀ n : Nat, resolve (toString n) = none) {offset : Int64}
    (ok : evaluate resolve (ofOperand (name ++ "+" ++ toString offset).toList) = .ok address) :
    ∃ base, resolve name = some base ∧ address = base + addressOf offset := by
  have bare := (plain_of_isName names).1.bare
  cases value : offset.toInt with
  | ofNat n =>
    have text :
        (name ++ "+" ++ toString offset).toList = name.toList ++ '+' :: (toString n).toList := by
      have digits : toString offset = toString n := congrArg toString value
      rw [digits, String.toList_append, String.toList_append, List.append_assoc]
      rfl
    rw [text, ofOperand_bare (bare.append (.cons (by decide) (plain_toString n).bare))] at ok
    obtain ⟨base, added, known, number, sum⟩ := evaluate_sum names (unknown n) ok
    rw [String.ofList_toList] at known
    refine ⟨base, known, sum.trans (congrArg (base + ·) ?_)⟩
    have small := added.toNat_lt
    have value : offset.toInt = (n : Int) := value
    apply UInt16.toNat_inj.mp
    rw [toNat_addressOf (by omega) (by omega), number, value]
    rfl
  | negSucc n =>
    have text : (name ++ "+" ++ toString offset).toList =
        name.toList ++ '+' :: '-' :: (toString (n + 1)).toList := by
      have digits : toString offset = "-" ++ toString (n + 1) := congrArg toString value
      rw [digits, String.toList_append, String.toList_append, String.toList_append,
        List.append_assoc]
      rfl
    rw [text, ofOperand_bare (bare.append (.cons (by decide)
      (.cons (by decide) (plain_toString _).bare)))] at ok
    exact absurd ok (evaluate_sum_negative names)

end Named

/-- An operand for a variable stands for the address of its name plus the offset of the place. -/
theorem evaluate_operand {place : Place} {table : Table} {high : Bool} {mode : Mode}
    {operand : String}
    (memory : place.isMemory = true) (names : isName place.name.toList = true)
    (unknown : ∀ n : Nat, resolve (toString n) = none)
    (written : place.operand? table high = some (mode, operand))
    (ok : evaluate resolve (ofOperand operand.toList) = .ok address) :
    ∃ base, resolve place.name = some base ∧ address = base + addressOf place.offset := by
  have x : Bare ['X'] := .cons (by decide) .nil
  have y : Bare ['Y'] := .cons (by decide) .nil
  have bare := (plain_of_isName names).1.bare
  cases place with
  | cell name is8Bit offset signed =>
    cases written
    split at ok
    · next none =>
      rw [Place.offset, none]
      exact evaluate_alone names (ofOperand_bare bare) ok
    · exact evaluate_offset names unknown ok
  | indexedX name signed =>
    cases written
    refine evaluate_alone names ?_ ok
    rw [String.toList_append]
    exact ofOperand_indexed bare x
  | indexedY name signed =>
    rw [Place.operand?] at written
    split at written
    · cases written
      have text : ("(" ++ name ++ "),Y").toList =
          '(' :: (name.toList ++ [')']) ++ [',', 'Y'] := by simp
      refine evaluate_alone names ?_ ok
      rw [text]
      exact ofOperand_pointed bare y
    · cases written
      refine evaluate_alone names ?_ ok
      rw [String.toList_append]
      exact ofOperand_indexed bare y
  | scratch signed => cases names
  | _ => cases memory

end Backend6502.Lowering

namespace Backend6502.Code

open Instruction (literal?)
open Text (signed? digitIn? digitsFrom?)

namespace AddressExpr

variable {c sign : Char} {cs digits : List Char} {base width value : Nat} {n : Int}
  {resolve : String → Option UInt16} {address : UInt16}

theorem isAlphanum_of_digitIn? (digit : digitIn? base c = some value) :
    Text.inRanges [(0x30, 0x39), (0x41, 0x5a), (0x61, 0x7a)] c = true := by
  have read : Text.digitValue? c = some value := Option.eq_some_of_filter_eq_some digit
  rw [Text.inRanges_iff]
  unfold Text.digitValue? at read
  split at read
  · next inside => exact ⟨_, List.mem_cons_self, inside⟩
  · split at read
    · next inside => exact ⟨(0x61, 0x7a), by simp, inside⟩
    · split at read
      · next inside => exact ⟨(0x41, 0x5a), by simp, inside⟩
      · cases read

theorem plain_of_digitsFrom? (read : digitsFrom? base value cs = some width) : Plain cs := by
  induction cs generalizing value with
  | nil => exact List.forall_mem_nil _
  | cons c rest ih =>
    rw [digitsFrom?] at read
    split at read
    · next digit found =>
      refine List.forall_mem_cons.mpr ⟨?_, ih read⟩
      exact Text.inRanges_of_apart rfl (isAlphanum_of_digitIn? found)
    · cases read

/-- A numeral is digits with or without a sign before them. -/
theorem digits_of_signed? (read : signed? base width cs = some n) : ∃ digits, Plain digits ∧
    digits ≠ [] ∧ (cs = digits ∨ cs = '+' :: digits ∨ cs = '-' :: digits) := by
  obtain ⟨value, unsigned, -⟩ := Option.bind_eq_some_iff.mp read
  have plain : Plain (Text.splitSign cs).2 ∧ (Text.splitSign cs).2 ≠ [] := by
    unfold Text.unsigned? at unsigned
    split at unsigned
    · cases unsigned
    · next some => exact ⟨plain_of_digitsFrom? unsigned, some⟩
  refine ⟨_, plain.1, plain.2, ?_⟩
  unfold Text.splitSign
  split
  · exact .inr (.inr rfl)
  · exact .inr (.inl rfl)
  · exact .inl rfl

/-- What the optimizer reads as a number is one to the assembler. -/
theorem numeral?_of_literal? (read : literal? cs = some n) : numeral? cs = some n := by
  unfold literal? at read
  split at read
  · exact read
  · next other =>
    unfold numeral?
    split
    · exact absurd rfl (other _)
    · obtain ⟨digits, plain, -, same | same | same⟩ := digits_of_signed? read
      · subst same
        exact absurd rfl (plain.ne '%' List.mem_cons_self (by decide))
      · cases same
      · cases same
    · next rest =>
      have zero : digitIn? 10 '0' = some 0 := rfl
      have letter : digitIn? 10 'x' = none := rfl
      simp [signed?, Text.splitSign, Text.unsigned?, digitsFrom?, zero, letter] at read
    · exact read

theorem evaluateAtom_dollar (unknown : resolve "$" = none) :
    evaluateAtom resolve ['$'] = .error (.malformed "$") := by
  have numeral : numeral? ['$'] = none := rfl
  have text : String.ofList ['$'] = "$" := rfl
  have name : isName (withoutDot ['$']) = false := by decide +kernel
  simp only [evaluateAtom, numeral, text, unknown, name]
  rfl

/-- A sign behind a dollar separates a name from a number. -/
theorem evaluate_dollar_ne (unknown : resolve "$" = none) (plain : Plain digits)
    (signs : (sign == '+' || sign == '-') = true) (visible : Text.isBlank sign = false) :
    evaluate resolve ('$' :: sign :: digits) ≠ .ok address := by
  intro ok
  have unblank : ∀ d ∈ '$' :: [] ++ sign :: digits, Text.isBlank d = false :=
    List.forall_mem_cons.mpr ⟨rfl, List.forall_mem_cons.mpr ⟨visible, fun _ => plain.isBlank⟩⟩
  have cut : evaluate resolve ('$' :: sign :: digits) = _ :=
    evaluateUpTo_signed (digits.length + 2) unblank (by decide) (by decide) signs
      fun _ => plain.isUnsigned
  obtain ⟨base, first, -⟩ := Assembler.ok_of_bind (cut.symm.trans ok)
  have atom : evaluateUpTo resolve (digits.length + 2) ['$'] = evaluateAtom resolve ['$'] := rfl
  cases first.symm.trans (atom.trans (evaluateAtom_dollar unknown))

theorem evaluate_marked (plain : Plain digits) (visible : Text.isBlank c = false) (low : c ≠ '<')
    (high : c ≠ '>') : evaluate resolve (c :: digits) = evaluateAtom resolve (c :: digits) :=
  evaluateUpTo_atom (List.forall_mem_cons.mpr ⟨visible, fun _ => plain.isBlank⟩) low high
    (fun _ => plain.isUnsigned) _

/-- A number is taken as a whole, or has no value. -/
theorem evaluate_literal (unknown : resolve "$" = none) (read : literal? cs = some n)
    (ok : evaluate resolve cs = .ok address) : evaluateAtom resolve cs = .ok address := by
  unfold literal? at read
  split at read
  · obtain ⟨digits, plain, -, rfl | rfl | rfl⟩ := digits_of_signed? read
    · exact (evaluate_marked plain rfl (by decide) (by decide)).symm.trans ok
    · exact absurd ok (evaluate_dollar_ne unknown plain rfl rfl)
    · exact absurd ok (evaluate_dollar_ne unknown plain rfl rfl)
  · obtain ⟨digits, plain, some, rfl | rfl | rfl⟩ := digits_of_signed? read
    · obtain ⟨c, rest, rfl⟩ := List.exists_cons_of_ne_nil some
      exact (evaluateUpTo_plain plain _).symm.trans ok
    · exact (evaluate_marked plain rfl (by decide) (by decide)).symm.trans ok
    · exact (evaluate_marked plain rfl (by decide) (by decide)).symm.trans ok

theorem eq_ofInt_of_evaluateAtom (numeral : numeral? cs = some n)
    (ok : evaluateAtom resolve cs = .ok address) : address = UInt16.ofInt n := by
  simp only [evaluateAtom, numeral] at ok
  split at ok
  · cases ok
  · cases ok
    rfl

end AddressExpr

namespace Assembler

theorem evaluate_eq_ok {asm : Assembler} {stream : String} {cs : List Char} {address : UInt16}
    (ok : asm.evaluate stream cs = .ok address) :
    AddressExpr.evaluate (asm.resolve stream) cs = .ok address := by
  unfold evaluate at ok
  cases found : AddressExpr.evaluate (asm.resolve stream) cs with
  | error problem =>
    rw [found] at ok
    cases ok
  | ok value =>
    rw [found] at ok
    cases ok
    rfl

/-- The low byte of a number is that of its 16 bits. -/
theorem toUInt8_ofInt (n : Int) : (UInt16.ofInt n).toUInt8 = UInt8.ofInt n := by
  apply UInt8.toNat_inj.mp
  rw [UInt16.toNat_toUInt8]
  change (UInt16.ofNat (n % 65536).toNat).toNat % 256 = (UInt8.ofNat (n % 256).toNat).toNat
  rw [UInt16.toNat_ofNat_of_lt' (by change _ < 65536; omega),
    UInt8.toNat_ofNat_of_lt' (by change _ < 256; omega)]
  omega

/--
If the optimizer reads an immediate operand and the assembler encodes it, then by the byte that was
read. This holds wherever nothing has the name `$`.
-/
theorem operandBytes_of_immediate? {asm : Assembler} {i : Instruction} {byte : UInt8}
    (noLabel : asm.labels.find? "$" = none) (noSymbol : asm.symbols.find? "$" = none)
    (read : i.immediate? = some byte) {stream : String} {here : Nat} {bytes : List UInt8}
    (encoded : asm.operandBytes stream here i = .ok bytes) : bytes = [byte] := by
  have unknown : asm.resolve stream "$" = none := by
    have shared : fullName stream "$" = "$" := rfl
    rw [resolve, shared, noLabel]
    exact noSymbol
  unfold Instruction.immediate? at read
  split at read
  · next digits mode operand =>
    obtain ⟨n, number, rfl⟩ := Option.map_eq_some_iff.mp read
    unfold operandBytes at encoded
    rw [mode, operand] at encoded
    obtain ⟨address, evaluated, ends⟩ := ok_of_bind encoded
    cases ends
    have whole := AddressExpr.evaluate_literal unknown number (evaluate_eq_ok evaluated)
    rw [AddressExpr.eq_ofInt_of_evaluateAtom (AddressExpr.numeral?_of_literal? number) whole,
      toUInt8_ofInt]
  · cases read

def loadMinusOne : Instruction :=
  { Instruction.bare (.known .lda) .immediate "#-1" 2 with cycles := 2 }

theorem operandBytes_loadMinusOne :
    loadMinusOne.immediate? = some 255 ∧
      operandBytes {} "main" 0x1000 loadMinusOne = .ok [255] := by
  have read : loadMinusOne.immediate? = some 255 := by decide +kernel
  have encoded : operandBytes {} "main" 0x1000 loadMinusOne = .ok [255] := by
    cases found : operandBytes {} "main" 0x1000 loadMinusOne with
    | ok bytes => rw [operandBytes_of_immediate? rfl rfl read found]
    | error e =>
      have goes : (operandBytes {} "main" 0x1000 loadMinusOne).isOk = true := by decide +kernel
      rw [found] at goes
      cases goes
  exact ⟨read, encoded⟩

end Assembler

end Backend6502.Code
