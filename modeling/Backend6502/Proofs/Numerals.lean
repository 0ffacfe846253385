import Backend6502.Code.Instruction

/-!
# Numerals read back

A number that is written in decimal is read back as itself. Numbered labels are therefore different
where their numbers are, and an immediate operand stands for the byte that was written.
-/

namespace Backend6502.Text

theorem digitsFrom?_append (base value : Nat) (first second : List Char) :
    digitsFrom? base value (first ++ second) =
      (digitsFrom? base value first).bind (digitsFrom? base · second) := by
  induction first generalizing value with
  | nil => rfl
  | cons c rest ih =>
    rw [List.cons_append, digitsFrom?, digitsFrom?]
    cases digitIn? base c with
    | none => rfl
    | some digit => exact ih _

theorem digitsFrom?_digitChar (value : Nat) {digit : Nat} (small : digit < 10) :
    digitsFrom? 10 value [digit.digitChar] = some (value * 10 + digit) := by
  have every : ∀ d : Fin 10, digitIn? 10 d.val.digitChar = some d.val := by decide
  simp only [digitsFrom?, every ⟨digit, small⟩]

theorem digitsFrom?_toDigits (n : Nat) : digitsFrom? 10 0 (Nat.toDigits 10 n) = some n := by
  induction n using Nat.strongRecOn with
  | ind n ih =>
    rw [Nat.toDigits_eq_if (by decide)]
    split
    · next small => rw [digitsFrom?_digitChar 0 small, Nat.zero_mul, Nat.zero_add]
    · have lower : n / 10 < n := by omega
      have whole : n / 10 * 10 + n % 10 = n := by omega
      rw [digitsFrom?_append, ih (n / 10) lower, Option.bind_some,
        digitsFrom?_digitChar _ (Nat.mod_lt n (by decide)), whole]

theorem unsigned?_toDigits (n : Nat) : unsigned? 10 (Nat.toDigits 10 n) = some n := by
  unfold unsigned?
  split
  · next none => exact absurd none Nat.toDigits_ne_nil
  · exact digitsFrom?_toDigits n

/-- Numbers that are written alike are equal. -/
theorem toString_injective {m n : Nat} (same : toString m = toString n) : m = n := by
  have digits : Nat.toDigits 10 m = Nat.toDigits 10 n := by
    rw [← Nat.toList_repr, ← Nat.toList_repr]
    exact congrArg String.toList same
  have read := digitsFrom?_toDigits m
  rw [digits, digitsFrom?_toDigits n] at read
  exact (Option.some.inj read).symm

/-- No text that starts with a character other than a digit is a number. -/
theorem toString_ne_of_head {c : Char} {rest : List Char} (other : c.isDigit = false) (n : Nat) :
    (toString n).toList ≠ c :: rest := by
  intro same
  have inside : c ∈ Nat.toDigits 10 n := by
    rw [← Nat.toList_repr]
    exact same ▸ List.mem_cons_self
  rw [Nat.isDigit_of_mem_toDigits (by decide) (by decide) inside] at other
  cases other

theorem signed?_toString_eq (width n : Nat) :
    signed? 10 width (toString n).toList = fitSigned? width false n := by
  have unsigned : splitSign (toString n).toList = (false, (toString n).toList) := by
    unfold splitSign
    split
    · next same => exact absurd same (toString_ne_of_head (by decide) n)
    · next same => exact absurd same (toString_ne_of_head (by decide) n)
    · rfl
  have digits : unsigned? 10 (toString n).toList = some n := by
    rw [show (toString n).toList = Nat.toDigits 10 n from Nat.toList_repr]
    exact unsigned?_toDigits n
  simp only [signed?, unsigned, digits, Option.bind_some]

theorem signed?_toString {width n : Nat} (small : n < Nat.pow 2 (width - 1)) :
    signed? 10 width (toString n).toList = some (n : Int) := by
  rw [signed?_toString_eq, fitSigned?, if_neg Bool.false_ne_true, if_pos small]

theorem toList_toString_ofNat (m : Nat) : (toString (Int.ofNat m)).toList = Nat.toDigits 10 m :=
  Nat.toList_repr

theorem toList_toString_negSucc (m : Nat) :
    (toString (Int.negSucc m)).toList = '-' :: Nat.toDigits 10 (m + 1) := by
  change ("-" ++ toString (m + 1)).toList = _
  rw [String.toList_append, show (toString (m + 1)).toList = _ from Nat.toList_repr]
  rfl

theorem signed?_toString_int {width : Nat} {n : Int} (low : -(Nat.pow 2 (width - 1) : Int) ≤ n)
    (high : n < Nat.pow 2 (width - 1)) : signed? 10 width (toString n).toList = some n := by
  cases n with
  | ofNat m => exact signed?_toString (Int.ofNat_lt.mp high)
  | negSucc m =>
    have fits : m + 1 ≤ Nat.pow 2 (width - 1) := by omega
    simp only [toList_toString_negSucc, signed?, splitSign, unsigned?_toDigits, Option.bind_some,
      fitSigned?, if_pos, fits]
    rfl

end Backend6502.Text
