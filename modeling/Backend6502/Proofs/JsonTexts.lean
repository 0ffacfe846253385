import Backend6502.Json.Parser
import Backend6502.Proofs.Numerals

/-!
# JSON values as texts

A value is written without blanks, with quotes, backslashes and control characters escaped. Reading
gives back what was written, up to the greatest depth that the reader admits, and refuses the rest.
-/

namespace Backend6502.Json

def escaped (c : Char) : List Char :=
  if c = '"' then ['\\', '"']
  else if c = '\\' then ['\\', '\\']
  else if c.toNat < 0x20 then
    ['\\', 'u', '0', '0', Text.hexDigit (c.toNat / 16), Text.hexDigit (c.toNat % 16)]
  else [c]

def stringChars (text : String) : List Char :=
  text.toList.flatMap escaped ++ ['"']

namespace Value

mutual

def chars : Value → List Char
  | .null => ['n', 'u', 'l', 'l']
  | .bool true => ['t', 'r', 'u', 'e']
  | .bool false => ['f', 'a', 'l', 's', 'e']
  | .number text => text.toList
  | .string text => '"' :: stringChars text
  | .array items => '[' :: itemsChars items
  | .object members => '{' :: membersChars members

def itemsChars : List Value → List Char
  | [] => [']']
  | [item] => item.chars ++ [']']
  | item :: next :: rest => item.chars ++ ',' :: itemsChars (next :: rest)

def membersChars : List (String × Value) → List Char
  | [] => ['}']
  | [(name, value)] => '"' :: (stringChars name ++ ':' :: (value.chars ++ ['}']))
  | (name, value) :: next :: rest =>
    '"' :: (stringChars name ++ ':' :: (value.chars ++ ',' :: membersChars (next :: rest)))

end

def text (v : Value) : String :=
  String.ofList v.chars

mutual

def Whole : Value → Prop
  | .number text => ∃ n : Int, text = toString n
  | .array items => ItemsWhole items
  | .object members => MembersWhole members
  | _ => True

def ItemsWhole : List Value → Prop
  | [] => True
  | item :: rest => item.Whole ∧ ItemsWhole rest

def MembersWhole : List (String × Value) → Prop
  | [] => True
  | (_, value) :: rest => value.Whole ∧ MembersWhole rest

end

end Value

namespace Parser

/-- A value ends here: there is nothing more, or a mark that goes on with the array or object. -/
def Ends (rest : List Char) : Prop :=
  ∀ c ∈ rest.head?, c = ',' ∨ c = ']' ∨ c = '}'

section Strings

variable {units : List Nat} {rest : List Char}

theorem hex4?_hexDigit {n : Nat} (small : n < 0x20) :
    hex4? '0' '0' (Text.hexDigit (n / 16)) (Text.hexDigit (n % 16)) = some n := by
  have every : ∀ n : Fin 0x20,
      hex4? '0' '0' (Text.hexDigit (n.val / 16)) (Text.hexDigit (n.val % 16)) = some n.val := by
    decide
  exact every ⟨n, small⟩

theorem stringUnits?_escaped_append (c : Char) :
    stringUnits? units (escaped c ++ rest) = stringUnits? (c.toNat :: units) rest := by
  unfold escaped
  split
  · next quote =>
    subst quote
    rfl
  split
  · next backslash =>
    subst backslash
    rfl
  split
  · next control =>
    simp only [List.cons_append, List.nil_append, stringUnits?, hex4?_hexDigit control]
  · next noQuote noBackslash visible =>
    rw [List.singleton_append, stringUnits?]
    · simp [visible, noBackslash]
    all_goals simp_all

theorem stringUnits?_flatMap (cs : List Char) :
    stringUnits? units (cs.flatMap escaped ++ '"' :: rest) =
      some ((cs.map Char.toNat).reverse ++ units, rest) := by
  induction cs generalizing units with
  | nil => rfl
  | cons c cs ih =>
    rw [List.flatMap_cons, List.append_assoc, stringUnits?_escaped_append, ih, List.map_cons,
      List.reverse_cons, List.append_assoc, List.singleton_append]

/-- No character is half of a surrogate pair. -/
theorem isSurrogate_toNat (c : Char) :
    isHighSurrogate c.toNat = false ∧ isLowSurrogate c.toNat = false := by
  have valid : c.toNat < 0xD800 ∨ 0xDFFF < c.toNat ∧ c.toNat < 0x110000 := c.valid
  constructor
  · rw [isHighSurrogate, Bool.and_eq_false_iff, decide_eq_false_iff_not, decide_eq_false_iff_not]
    omega
  · rw [isLowSurrogate, Bool.and_eq_false_iff, decide_eq_false_iff_not, decide_eq_false_iff_not]
    omega

theorem joinUnits_toNat (cs : List Char) : joinUnits (cs.map Char.toNat) = cs := by
  induction cs with
  | nil => rfl
  | cons c cs ih =>
    cases cs with
    | nil => simp [joinUnits, isSurrogate_toNat]
    | cons next cs =>
      rw [List.map_cons] at ih
      simp [joinUnits, isSurrogate_toNat, ih]

theorem string?_stringChars (text : String) :
    string? (stringChars text ++ rest) = some (text, rest) := by
  rw [string?, stringChars, List.append_assoc, List.singleton_append, stringUnits?_flatMap]
  simp [joinUnits_toNat]

end Strings

section Numbers

variable {rest : List Char}

theorem Ends.isDigit_head (ends : Ends rest) : ∀ c ∈ rest.head?, isDigit c = false := by
  intro c first
  rcases ends c first with rfl | rfl | rfl <;> rfl

theorem isDigit_of_mem_toDigits {m : Nat} {c : Char} (inside : c ∈ Nat.toDigits 10 m) :
    isDigit c = true := by
  have digit := Nat.isDigit_of_mem_toDigits (by decide) (by decide) inside
  simpa [isDigit, Char.isDigit, Char.le_def] using digit

theorem digits?_append {digits : List Char} (some : digits ≠ [])
    (all : ∀ c ∈ digits, isDigit c = true) (ends : Ends rest) :
    digits? (digits ++ rest) = .some (digits, rest) := by
  have after : rest.takeWhile isDigit = [] ∧ rest.dropWhile isDigit = rest := by
    cases rest with
    | nil => exact ⟨rfl, rfl⟩
    | cons c rest =>
      have other := ends.isDigit_head c rfl
      exact ⟨List.takeWhile_cons_of_neg (by simp [other]),
        List.dropWhile_cons_of_neg (by simp [other])⟩
  rw [digits?, List.takeWhile_append_of_pos all, List.dropWhile_append_of_pos all, after.1, after.2,
    List.append_nil]
  cases digits with
  | nil => exact absurd rfl some
  | cons c digits => rfl

theorem toDigits_ne_zero_cons {m : Nat} (positive : 0 < m) (tail : List Char) :
    Nat.toDigits 10 m ≠ '0' :: tail := by
  induction m using Nat.strongRecOn generalizing tail with
  | ind m ih =>
    rw [Nat.toDigits_eq_if (by decide)]
    split
    · next small =>
      have every : ∀ d : Fin 10, 0 < d.val → d.val.digitChar ≠ '0' := by decide
      intro same
      exact every ⟨m, small⟩ positive (List.cons.inj same).1
    · intro same
      cases shape : Nat.toDigits 10 (m / 10) with
      | nil => exact Nat.toDigits_ne_nil shape
      | cons c digits =>
        rw [shape, List.cons_append] at same
        rw [(List.cons.inj same).1] at shape
        exact ih (m / 10) (by omega) (by omega) digits shape

theorem whole?_toDigits (m : Nat) (ends : Ends rest) :
    whole? (Nat.toDigits 10 m ++ rest) = some (Nat.toDigits 10 m, rest) := by
  rcases Nat.eq_zero_or_pos m with rfl | positive
  · rfl
  · cases shape : Nat.toDigits 10 m with
    | nil => exact absurd shape Nat.toDigits_ne_nil
    | cons c digits =>
      have lead : c ≠ '0' := by
        rintro rfl
        exact toDigits_ne_zero_cons positive digits shape
      rw [List.cons_append, whole?, ← List.cons_append, ← shape]
      · exact digits?_append Nat.toDigits_ne_nil (fun _ => isDigit_of_mem_toDigits) ends
      · rintro tail same
        exact lead (List.cons.inj same).1

theorem fraction?_of_ends (ends : Ends rest) : fraction? rest = some ([], rest) := by
  cases rest with
  | nil => rfl
  | cons c rest => rcases ends c rfl with rfl | rfl | rfl <;> rfl

theorem exponent?_of_ends (ends : Ends rest) : exponent? rest = some ([], rest) := by
  cases rest with
  | nil => rfl
  | cons c rest => rcases ends c rfl with rfl | rfl | rfl <;> rfl

theorem magnitude?_toDigits (m : Nat) (ends : Ends rest) :
    magnitude? (Nat.toDigits 10 m ++ rest) = some (Nat.toDigits 10 m, rest) := by
  simp [magnitude?, whole?_toDigits m ends, fraction?_of_ends ends, exponent?_of_ends ends]

/-- A number starts with a digit or a minus sign. -/
theorem toList_toString_head (n : Int) :
    ∃ c tail, (toString n).toList = c :: tail ∧ (isDigit c = true ∨ c = '-') := by
  cases n with
  | ofNat m =>
    cases shape : Nat.toDigits 10 m with
    | nil => exact absurd shape Nat.toDigits_ne_nil
    | cons c tail =>
      have inside : c ∈ Nat.toDigits 10 m := shape ▸ List.mem_cons_self
      exact ⟨c, tail, (Text.toList_toString_ofNat m).trans shape,
        .inl (isDigit_of_mem_toDigits inside)⟩
  | negSucc m => exact ⟨'-', _, Text.toList_toString_negSucc m, .inr rfl⟩

theorem number?_toString (n : Int) (ends : Ends rest) :
    number? ((toString n).toList ++ rest) = some (toString n, rest) := by
  cases n with
  | ofNat m =>
    have shape := Text.toList_toString_ofNat m
    rw [shape, number?, magnitude?_toDigits m ends, ← shape]
    · simp only [Option.map_some, String.ofList_toList]
    · intro tail same
      cases digits : Nat.toDigits 10 m with
      | nil => exact absurd digits Nat.toDigits_ne_nil
      | cons c more =>
        have inside : c ∈ Nat.toDigits 10 m := digits ▸ List.mem_cons_self
        rw [digits, List.cons_append] at same
        have digit := isDigit_of_mem_toDigits inside
        rw [(List.cons.inj same).1] at digit
        cases digit
  | negSucc m =>
    have shape := Text.toList_toString_negSucc m
    rw [shape, List.cons_append, number?, magnitude?_toDigits (m + 1) ends]
    simp only [Option.map_some, ← shape, String.ofList_toList]

end Numbers

section Values

variable {rest : List Char} {bound room : Nat}

theorem ends_comma : Ends (',' :: rest) := by
  rintro c ⟨⟩
  exact .inl rfl

theorem ends_bracket : Ends (']' :: rest) := by
  rintro c ⟨⟩
  exact .inr (.inl rfl)

theorem ends_brace : Ends ('}' :: rest) := by
  rintro c ⟨⟩
  exact .inr (.inr rfl)

theorem skipBlanks_cons {c : Char} {cs : List Char} (visible : c ∉ [' ', '\t', '\n', '\r']) :
    skipBlanks (c :: cs) = c :: cs := by
  apply List.dropWhile_cons_of_neg
  simpa [and_assoc] using visible

theorem not_mem_of_starts {c : Char} (starts : isDigit c = true ∨ c = '-') :
    c ∉ [' ', '\t', '\n', '\r', 'n', 't', 'f', '"', '[', '{', ']'] := by
  intro inside
  rcases starts with digit | rfl
  · have each : [' ', '\t', '\n', '\r', 'n', 't', 'f', '"', '[', '{', ']'].any isDigit = false := by
      decide
    exact List.any_eq_false.mp each c inside digit
  · revert inside
    decide

theorem value?_of_number {c : Char} {cs : List Char} (starts : isDigit c = true ∨ c = '-') :
    value? (bound + 1) room (c :: cs) =
      (number? (c :: cs)).map fun (text, rest) => (.number text, rest) := by
  have others := not_mem_of_starts starts
  rw [value?, skipBlanks_cons (by simp_all)]
  split <;> simp_all

/-- What is written starts with neither a blank nor the end of an array. -/
theorem chars_head {v : Value} (whole : v.Whole) :
    ∃ c tail, v.chars = c :: tail ∧ c ∉ [' ', '\t', '\n', '\r'] ∧ c ≠ ']' := by
  cases v with
  | null | string text | array items | object members => exact ⟨_, _, rfl, by decide⟩
  | bool b => cases b <;> exact ⟨_, _, rfl, by decide⟩
  | number text =>
    obtain ⟨n, rfl⟩ := whole
    obtain ⟨c, tail, shape, starts⟩ := toList_toString_head n
    have others := not_mem_of_starts starts
    exact ⟨c, tail, shape, by simp_all⟩

theorem value?_bracket {v : Value} {cs : List Char} (whole : v.Whole) :
    value? (bound + 1) (room + 1) ('[' :: (v.chars ++ cs)) = items? bound room []
      (v.chars ++ cs) := by
  obtain ⟨c, tail, shape, visible, noEnd⟩ := chars_head whole
  have blank : skipBlanks ('[' :: (v.chars ++ cs)) = '[' :: (v.chars ++ cs) :=
    skipBlanks_cons (by decide)
  rw [value?, blank, shape, List.cons_append]
  simp only [skipBlanks_cons visible]
  split
  · next same => exact absurd (List.cons.inj same).1 noEnd
  · rfl

section Sequences

variable {v : Value} {name : String} {cs : List Char} {depth others : Nat}

theorem items?_last {before : List Value}
    (first : value? bound room cs = if depth ≤ room then some (v, ']' :: rest) else none) :
    items? (bound + 1) room before cs =
      if max depth 0 ≤ room then some (.array (v :: before).reverse, rest) else none := by
  rw [items?, first, Nat.max_zero]
  by_cases fits : depth ≤ room
  · rw [if_pos fits, if_pos fits]
    rfl
  · rw [if_neg fits, if_neg fits]

theorem items?_further {before : List Value} {result : Value × List Char}
    (first : value? bound room cs = if depth ≤ room then some (v, ',' :: rest) else none)
    (further : items? bound room (v :: before) rest = if others ≤ room then some result else none) :
    items? (bound + 1) room before cs = if max depth others ≤ room then some result else none := by
  rw [items?, first]
  by_cases fits : depth ≤ room
  · simp only [Nat.max_le, fits, true_and]
    exact further
  · rw [if_neg fits, if_neg fun all => fits (Nat.max_le.mp all).1]

theorem members?_last {before : List (String × Value)}
    (first : value? bound room cs = if depth ≤ room then some (v, '}' :: rest) else none) :
    members? (bound + 1) room before ('"' :: (stringChars name ++ ':' :: cs)) =
      if max depth 0 ≤ room then some (.object ((name, v) :: before).reverse, rest) else none := by
  have opened : skipBlanks ('"' :: (stringChars name ++ ':' :: cs)) =
      '"' :: (stringChars name ++ ':' :: cs) := rfl
  have colon : skipBlanks (':' :: cs) = ':' :: cs := rfl
  rw [Nat.max_zero]
  simp only [members?, opened, string?_stringChars, colon, first]
  by_cases fits : depth ≤ room
  · rw [if_pos fits, if_pos fits]
    rfl
  · rw [if_neg fits, if_neg fits]

theorem members?_further {before : List (String × Value)} {result : Value × List Char}
    (first : value? bound room cs = if depth ≤ room then some (v, ',' :: rest) else none)
    (further : members? bound room ((name, v) :: before) rest =
      if others ≤ room then some result else none) :
    members? (bound + 1) room before ('"' :: (stringChars name ++ ':' :: cs)) =
      if max depth others ≤ room then some result else none := by
  have opened : skipBlanks ('"' :: (stringChars name ++ ':' :: cs)) =
      '"' :: (stringChars name ++ ':' :: cs) := rfl
  have colon : skipBlanks (':' :: cs) = ':' :: cs := rfl
  simp only [members?, opened, string?_stringChars, colon, first]
  by_cases fits : depth ≤ room
  · simp only [Nat.max_le, fits, true_and]
    exact further
  · rw [if_neg fits, if_neg fun all => fits (Nat.max_le.mp all).1]

end Sequences

mutual

theorem value?_chars : (v : Value) → v.Whole → (bound room : Nat) → v.chars.length < bound →
    (rest : List Char) → Ends rest →
    value? bound room (v.chars ++ rest) = if v.depth ≤ room then some (v, rest) else none
  | _, _, 0, _, short, _, _ => nomatch short
  | .null, _, bound + 1, room, _, rest, _ => rfl
  | .bool true, _, bound + 1, room, _, rest, _ => rfl
  | .bool false, _, bound + 1, room, _, rest, _ => rfl
  | .number _, ⟨n, rfl⟩, bound + 1, room, _, rest, ends => by
      obtain ⟨c, tail, shape, starts⟩ := toList_toString_head n
      have read := number?_toString n ends
      rw [Value.chars]
      rw [shape, List.cons_append] at read ⊢
      rw [value?_of_number starts, read]
      rfl
  | .string text, _, bound + 1, room, _, rest, ends => by
      have read : value? (bound + 1) room ('"' :: (stringChars text ++ rest)) =
          (string? (stringChars text ++ rest)).map fun (text, rest) => (.string text, rest) := rfl
      rw [Value.chars, List.cons_append, read, string?_stringChars]
      rfl
  | .array [], _, bound + 1, 0, _, rest, ends => rfl
  | .array [], _, bound + 1, room + 1, _, rest, ends => rfl
  | .array (item :: items), whole, bound + 1, 0, short, rest, ends => rfl
  | .array (item :: items), whole, bound + 1, room + 1, short, rest, ends => by
      rw [Value.chars, List.length_cons] at short
      have read := items?_itemsChars item items whole bound room (by omega) [] rest
      obtain ⟨cs, shape⟩ : ∃ cs, Value.itemsChars (item :: items) ++ rest = item.chars ++ cs := by
        cases items with
        | nil => exact ⟨_, List.append_assoc ..⟩
        | cons next items => exact ⟨_, List.append_assoc ..⟩
      rw [Value.chars, List.cons_append, shape, value?_bracket whole.1, ← shape, read, Value.depth]
      simp only [Nat.add_le_add_iff_right, List.reverse_nil, List.nil_append]
  | .object [], _, bound + 1, 0, _, rest, ends => rfl
  | .object [], _, bound + 1, room + 1, _, rest, ends => rfl
  | .object (member :: members), whole, bound + 1, 0, short, rest, ends => rfl
  | .object (member :: members), whole, bound + 1, room + 1, short, rest, ends => by
      rw [Value.chars, List.length_cons] at short
      have read := members?_membersChars member members whole bound room (by omega) [] rest
      have opened : value? (bound + 1) (room + 1)
          ('{' :: (Value.membersChars (member :: members) ++ rest)) =
          members? bound room [] (Value.membersChars (member :: members) ++ rest) := by
        cases members with
        | nil => rfl
        | cons next members => rfl
      rw [Value.chars, List.cons_append, opened, read, Value.depth]
      simp only [Nat.add_le_add_iff_right, List.reverse_nil, List.nil_append]

theorem items?_itemsChars : (item : Value) → (items : List Value) →
    Value.ItemsWhole (item :: items) → (bound room : Nat) →
    (Value.itemsChars (item :: items)).length < bound → (before : List Value) →
    (rest : List Char) →
    items? bound room before (Value.itemsChars (item :: items) ++ rest) =
      if Value.itemsDepth (item :: items) ≤ room then
        some (.array (before.reverse ++ item :: items), rest) else none
  | _, _, _, 0, _, short, _, _ => nomatch short
  | item, [], whole, bound + 1, room, short, before, rest => by
      rw [Value.itemsChars, List.length_append, List.length_singleton] at short
      have first := value?_chars item whole.1 bound room (by omega) (']' :: rest) ends_bracket
      rw [Value.itemsChars, List.append_assoc, List.singleton_append, items?_last first,
        List.reverse_cons]
      rfl
  | item, next :: items, whole, bound + 1, room, short, before, rest => by
      rw [Value.itemsChars, List.length_append, List.length_cons] at short
      have first := value?_chars item whole.1 bound room (by omega)
        (',' :: (Value.itemsChars (next :: items) ++ rest)) ends_comma
      have further := items?_itemsChars next items whole.2 bound room (by omega)
        (item :: before) rest
      rw [Value.itemsChars, List.append_assoc, List.cons_append, items?_further first further,
        List.reverse_cons, List.append_assoc]
      rfl

theorem members?_membersChars : (member : String × Value) → (members : List (String × Value)) →
    Value.MembersWhole (member :: members) → (bound room : Nat) →
    (Value.membersChars (member :: members)).length < bound → (before : List (String × Value)) →
    (rest : List Char) →
    members? bound room before (Value.membersChars (member :: members) ++ rest) =
      if Value.membersDepth (member :: members) ≤ room then
        some (.object (before.reverse ++ member :: members), rest) else none
  | _, _, _, 0, _, short, _, _ => nomatch short
  | (name, value), [], whole, bound + 1, room, short, before, rest => by
      simp only [Value.membersChars, List.length_cons, List.length_append] at short
      have first := value?_chars value whole.1 bound room (by omega) ('}' :: rest) ends_brace
      simp only [Value.membersChars, List.cons_append, List.append_assoc, List.nil_append]
      rw [members?_last first, List.reverse_cons]
      rfl
  | (name, value), next :: members, whole, bound + 1, room, short, before, rest => by
      simp only [Value.membersChars, List.length_cons, List.length_append] at short
      have first := value?_chars value whole.1 bound room (by omega)
        (',' :: (Value.membersChars (next :: members) ++ rest)) ends_comma
      have further := members?_membersChars next members whole.2 bound room (by omega)
        ((name, value) :: before) rest
      simp only [Value.membersChars, List.cons_append, List.append_assoc]
      rw [members?_further first further, List.reverse_cons, List.append_assoc]
      rfl

end

end Values

end Parser

/-- A value is read back from its text, unless it is nested too deeply. -/
theorem parse_text {v : Value} (whole : v.Whole) :
    parse v.text = if v.depth ≤ 10000 then .ok v else .error .malformed := by
  obtain ⟨c, tail, shape, visible, -⟩ := Parser.chars_head whole
  have read := Parser.value?_chars v whole (2 * v.chars.length + 2) 10000 (by omega) [] nofun
  rw [List.append_nil, shape] at read
  rw [parse, Value.text, String.toList_ofList, shape, Parser.skipBlanks_cons visible]
  simp only [read]
  by_cases fits : v.depth ≤ 10000
  · rw [if_pos fits, if_pos fits]
  · rw [if_neg fits, if_neg fits]

end Backend6502.Json
