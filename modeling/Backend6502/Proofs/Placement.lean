import Backend6502.Code.Assembler
import Backend6502.Proofs.Targets

/-!
# Addresses of lines

The assembler lays out lines one after another. For instructions from the table, both passes and the
reach of branches go by the same lengths: a label gets the sum of the lengths before it as its
address (`Laid`), and the bytes before a line number as many (`length_lineBytes`).
-/

namespace Backend6502

open Cpu (Mnemonic Mode Encoding)

namespace Cpu.Mode

def width : Mode → Nat
  | .implied | .accumulator => 0
  | .absolute | .absoluteX | .absoluteY | .indirect => 2
  | _ => 1

end Cpu.Mode

namespace Cpu.Encoding

variable {m : Mnemonic} {row : Encoding} {mode : Mode}

theorem length_of_mem (inside : row ∈ m.encodings) : row.length = row.mode.width + 1 := by
  have all : m.encodings.all fun row => row.length == row.mode.width + 1 := by
    cases m <;> decide
  exact eq_of_beq (List.all_eq_true.mp all row inside)

theorem mode_of_isBranch (inside : row ∈ m.encodings) (branches : m.isBranch = true) :
    row.mode = .relative := by
  have all : m.isBranch = true → m.encodings.all fun row => row.mode == .relative := by
    cases m <;> decide
  exact eq_of_beq (List.all_eq_true.mp (all branches) row inside)

theorem inMode?_eq_some (found : inMode? m mode = some row) :
    row ∈ m.encodings ∧ row.mode = mode := by
  have same := List.find?_some found
  exact ⟨List.mem_of_find?_eq_some found, eq_of_beq same⟩

theorem inMode?_of_find? (found : find? m mode = some row) : inMode? m row.mode = some row := by
  unfold find? at found
  split at found
  · next found' =>
    cases found
    rwa [(inMode?_eq_some found').2]
  · obtain ⟨wide, -, found⟩ := Option.bind_eq_some_iff.mp found
    rwa [(inMode?_eq_some found).2]

end Cpu.Encoding

namespace Code

variable {i : Instruction}

namespace Instruction

variable {i : Instruction}

/-- Taken from the table, whether the optimizer has to leave it alone or not. -/
def IsTabled (i : Instruction) : Prop :=
  ∃ mode, find? i.op mode i.operand = some { i with isProtected := false }

/-- It is found by its own mode, too. -/
theorem isTabled_iff :
    i.IsTabled ↔ find? i.op i.mode i.operand = some { i with isProtected := false } := by
  constructor
  · rintro ⟨mode, found⟩
    obtain ⟨row, found, same⟩ := Option.map_eq_some_iff.mp found
    obtain ⟨m, entry, found⟩ := Option.bind_eq_some_iff.mp found
    have modes : row.mode = i.mode := congrArg Instruction.mode same
    have exact := Encoding.inMode?_of_find? found
    rw [modes] at exact
    rw [find?, row?, entry, Option.bind_some, Encoding.find?, exact, Option.map_some, same]
  · exact fun found => ⟨i.mode, found⟩

instance (i : Instruction) : Decidable i.IsTabled :=
  decidable_of_iff _ isTabled_iff.symm

theorem isTabled_of_find? {op : Operation} {mode : Cpu.Mode} {operand : String}
    (found : find? op mode operand = some i) : i.IsTabled := by
  obtain ⟨row, listed, rfl⟩ := Option.map_eq_some_iff.mp found
  exact ⟨mode, found⟩

theorem isTabled_branch {m : Cpu.Mnemonic} (branches : m.isBranch = true) (target : String) :
    (branch m target).IsTabled :=
  isTabled_of_find? (find?_branch m target branches)

theorem isTabled_jump (target : String) : (jump target).IsTabled :=
  isTabled_of_find? (find?_jump target)

theorem IsTabled.row (tabled : i.IsTabled) :
    ∃ m row, i.op.entry? = some m ∧ Encoding.inMode? m i.mode = some row ∧
      i.size = Int64.ofNat (i.mode.width + 1) := by
  obtain ⟨mode, found⟩ := tabled
  obtain ⟨row, found, same⟩ := Option.map_eq_some_iff.mp found
  obtain ⟨m, entry, found⟩ := Option.bind_eq_some_iff.mp found
  have modes : row.mode = i.mode := congrArg Instruction.mode same
  have sizes : Int64.ofNat row.length = i.size := congrArg Instruction.size same
  have exact := Encoding.inMode?_of_find? found
  rw [modes] at exact
  refine ⟨m, row, entry, exact, ?_⟩
  rw [← sizes, ← modes, Encoding.length_of_mem (Encoding.inMode?_eq_some exact).1]

end Instruction

def Line.length (line : Line) : Nat :=
  line.size.toInt.toNat

def span : List Line → Nat
  | [] => 0
  | line :: rest => line.length + span rest

@[simp] theorem span_nil : span [] = 0 := rfl

@[simp] theorem span_cons (line : Line) (rest : List Line) :
    span (line :: rest) = line.length + span rest := rfl

@[simp] theorem span_append (first second : List Line) :
    span (first ++ second) = span first + span second := by
  induction first with
  | nil => simp
  | cons line first ih => rw [List.cons_append, span_cons, span_cons, ih, Nat.add_assoc]

@[simp] theorem span_reverse (lines : List Line) : span lines.reverse = span lines := by
  induction lines with
  | nil => rfl
  | cons line lines ih => simp [ih, Nat.add_comm]

@[simp] theorem Line.length_label (name : String) : (Line.label name).length = 0 := rfl
@[simp] theorem Line.length_comment (text : String) : (Line.comment text).length = 0 := rfl
@[simp] theorem Line.length_removed : Line.removed.length = 0 := rfl

theorem Instruction.IsTabled.length (tabled : i.IsTabled) :
    (Line.instruction i).length = i.mode.width + 1 := by
  obtain ⟨m, row, -, -, size⟩ := tabled.row
  change i.size.toInt.toNat = _
  rw [size]
  cases i.mode <;> rfl

theorem Instruction.IsTabled.size (tabled : i.IsTabled) :
    i.size = Int64.ofNat (Line.instruction i).length := by
  obtain ⟨m, row, -, -, size⟩ := tabled.row
  rw [size, tabled.length]

/-- An instruction from the table, or nothing that takes up bytes. -/
def Line.IsTabled : Line → Prop
  | .instruction i => i.IsTabled
  | .verbatim _ => False
  | _ => True

instance : DecidablePred Line.IsTabled
  | .instruction i => inferInstanceAs (Decidable i.IsTabled)
  | .verbatim _ => isFalse id
  | .label _ | .comment _ | .removed => isTrue trivial

/-- All instructions are from the table, and there is no other text. -/
def Tabled (lines : List Line) : Prop :=
  ∀ line ∈ lines, line.IsTabled

instance (lines : List Line) : Decidable (Tabled lines) :=
  inferInstanceAs (Decidable (∀ line ∈ lines, line.IsTabled))

theorem Tabled.size {lines : List Line} (tabled : Tabled lines) {line : Line}
    (inside : line ∈ lines) : line.size = Int64.ofNat line.length := by
  have here := tabled line inside
  cases line with
  | instruction i => exact Instruction.IsTabled.size here
  | verbatim text => cases here
  | label name | comment text | removed => rfl

theorem Tabled.mono {all some : List Line} (tabled : Tabled all) (inside : some ⊆ all) :
    Tabled some :=
  fun line here => tabled line (inside here)

/-- All instructions are from the table, whatever else there is. -/
def Listed (lines : List Line) : Prop :=
  ∀ i, .instruction i ∈ lines → i.IsTabled

theorem Tabled.listed {lines : List Line} (tabled : Tabled lines) : Listed lines :=
  fun i inside => tabled (.instruction i) inside

theorem Listed.append {first second : List Line} (high : Listed first) (low : Listed second) :
    Listed (first ++ second) := by
  intro i inside
  rcases List.mem_append.mp inside with up | down
  · exact high i up
  · exact low i down

theorem Listed.replicate (tabled : i.IsTabled) (count : Nat) :
    Listed (List.replicate count (.instruction i)) := by
  intro j inside
  cases (List.mem_replicate.mp inside).2
  exact tabled

theorem AddressBook.find?_insert_of_some {book : AddressBook} {name other : String}
    {address found : UInt16} (fresh : book.find? name = none)
    (known : book.find? other = some found) :
    (book.insert name address).find? other = some found := by
  rw [AddressBook.find?_insert_of_ne _ _ _ _ ?_, known]
  intro same
  rw [AddressBook.find?, same] at known
  rw [AddressBook.find?, known] at fresh
  cases fresh

/-- Lengths of instructions do not overflow the addresses of the first pass. -/
theorem Instruction.IsTabled.toNat_add (tabled : i.IsTabled) {address : UInt32}
    (low : address.toNat ≤ 0x10000) :
    (address + i.size.toUInt64.toUInt32).toNat = address.toNat + (Line.instruction i).length := by
  have short : (Line.instruction i).length ≤ 3 := by
    rw [tabled.length]
    cases i.mode <;> decide
  have same : i.size.toUInt64.toUInt32.toNat = (Line.instruction i).length := by
    rw [tabled.size, tabled.length]
    cases i.mode <;> rfl
  rw [UInt32.toNat_add, same]
  omega

namespace Assembler

section FirstPass

variable {stream : String} {book new : AddressBook} {address final : UInt32} {index : Nat}
  {lines : List Line}

/-- What a book of addresses says of lines that are laid out from an address on. -/
structure Laid (stream : String) (start : Nat) (lines : List Line) (old new : AddressBook) :
    Prop where
  fits : start + span lines ≤ 0x10000
  keeps : ∀ name address, old.find? name = some address → new.find? name = some address
  labels : ∀ above name below, lines = above ++ .label name :: below →
    start + span above < 0x10000 ∧
      new.find? (fullName stream name) = some (UInt16.ofNat (start + span above))

theorem Laid.cons {start : Nat} {line : Line} {old middle new : AddressBook}
    (keeps : ∀ name address, old.find? name = some address → middle.find? name = some address)
    (here : ∀ name, line = .label name → start < 0x10000 ∧
      middle.find? (fullName stream name) = some (UInt16.ofNat start))
    (rest : Laid stream (start + line.length) lines middle new) :
    Laid stream start (line :: lines) old new where
  fits := by
    rw [span_cons, ← Nat.add_assoc]
    exact rest.fits
  keeps := fun name address known => rest.keeps name address (keeps name address known)
  labels := by
    intro above name below cut
    cases above with
    | nil =>
      obtain ⟨rfl, -⟩ := List.cons.inj cut
      obtain ⟨low, known⟩ := here name rfl
      exact ⟨low, rest.keeps _ _ known⟩
    | cons first above =>
      obtain ⟨rfl, further⟩ := List.cons.inj cut
      obtain ⟨low, known⟩ := rest.labels above name below further
      rw [Nat.add_assoc] at low known
      exact ⟨low, known⟩

/-- The first pass gives every label the sum of the lengths before it. -/
theorem laid_of_placeLines (tabled : Tabled lines) (low : address.toNat ≤ 0x10000)
    (placed : placeLines stream book address index lines = (new, .ok final)) :
    Laid stream address.toNat lines book new ∧ final.toNat = address.toNat + span lines := by
  induction lines generalizing book address index with
  | nil =>
    cases placed
    exact ⟨⟨low, fun name address known => known, by simp⟩, rfl⟩
  | cons line rest ih =>
    obtain ⟨here, others⟩ := List.forall_mem_cons.mp tabled
    cases line with
    | label name =>
      rw [placeLines] at placed
      split at placed
      · cases placed
      · next below =>
        split at placed
        · cases placed
        · next fresh =>
          obtain ⟨laid, sum⟩ := ih others low placed
          refine ⟨.cons ?_ ?_ laid, by simpa using sum⟩
          · exact fun other found known => AddressBook.find?_insert_of_some fresh known
          · rintro _ ⟨⟩
            have small : address.toNat < 0x10000 := by
              have below : ¬ (0xFFFF : Nat) < address.toNat := below
              omega
            refine ⟨small, ?_⟩
            rw [AddressBook.find?_insert_self]
            simp
    | instruction i =>
      rw [placeLines] at placed
      split at placed
      · cases placed
      · next fits =>
        have fits : ¬ (0x10000 : Nat) < (address + i.size.toUInt64.toUInt32).toNat := fits
        obtain ⟨laid, sum⟩ := ih others (Nat.le_of_not_lt fits) placed
        rw [Instruction.IsTabled.toNat_add here low] at laid sum
        refine ⟨.cons (fun name address known => known) nofun laid, ?_⟩
        rw [sum, span_cons, Nat.add_assoc]
    | verbatim text => cases here
    | comment text | removed =>
      obtain ⟨laid, sum⟩ := ih others low placed
      exact ⟨.cons (fun name address known => known) nofun laid, by simpa using sum⟩

theorem keeps_of_placeStreams {streams : List Stream}
    (tabled : ∀ s ∈ streams, Tabled s.lines) (low : address.toNat ≤ 0x10000)
    (placed : placeStreams book address streams = (new, .ok final)) {name : String}
    {found : UInt16} (known : book.find? name = some found) : new.find? name = some found := by
  induction streams generalizing book address with
  | nil =>
    cases placed
    exact known
  | cons s rest ih =>
    rw [placeStreams] at placed
    split at placed
    · next middle next here =>
      obtain ⟨own, others⟩ := List.forall_mem_cons.mp tabled
      obtain ⟨laid, sum⟩ := laid_of_placeLines own low here
      exact ih others (sum ▸ laid.fits) placed (laid.keeps name found known)
    · cases placed

/-- The first pass lays every stream out after those before it. -/
theorem laid_of_placeStreams {earlier later : List Stream} {s : Stream}
    (tabled : ∀ t ∈ earlier ++ s :: later, Tabled t.lines) (low : address.toNat ≤ 0x10000)
    (placed : placeStreams book address (earlier ++ s :: later) = (new, .ok final)) :
    Laid s.name (address.toNat + span (earlier.flatMap Stream.lines)) s.lines book new := by
  induction earlier generalizing book address with
  | nil =>
    rw [List.nil_append, placeStreams] at placed
    split at placed
    · next middle next here =>
      obtain ⟨own, others⟩ := List.forall_mem_cons.mp tabled
      obtain ⟨laid, sum⟩ := laid_of_placeLines own low here
      have stays {name : String} {found : UInt16} (known : middle.find? name = some found) :
          new.find? name = some found :=
        keeps_of_placeStreams others (sum ▸ laid.fits) placed known
      refine ⟨laid.fits, fun name found known => stays (laid.keeps name found known), ?_⟩
      intro above name below cut
      obtain ⟨small, known⟩ := laid.labels above name below cut
      exact ⟨small, stays known⟩
    · cases placed
  | cons first earlier ih =>
    rw [List.cons_append, placeStreams] at placed
    split at placed
    · next middle next here =>
      obtain ⟨own, others⟩ := List.forall_mem_cons.mp tabled
      obtain ⟨laid, sum⟩ := laid_of_placeLines own low here
      have further := ih others (sum ▸ laid.fits) placed
      rw [sum, Nat.add_assoc, ← span_append, ← List.flatMap_cons] at further
      exact ⟨further.fits,
        fun name found known => further.keeps name found (laid.keeps name found known),
        further.labels⟩
    · cases placed

end FirstPass

section SecondPass

variable {asm : Assembler} {stream : String} {here : Nat}
variable {α β : Type} {i : Instruction} {bytes : List UInt8}

theorem ok_bind (a : α) (next : α → Except AssemblyError β) : (.ok a >>= next) = next a := rfl

theorem ok_of_bind {ε : Type} {first : Except ε α} {next : α → Except ε β} {result : β}
    (ok : (first >>= next) = .ok result) : ∃ a, first = .ok a ∧ next a = .ok result := by
  cases first with
  | error problem => cases ok
  | ok a => exact ⟨a, rfl, ok⟩

theorem length_operandBytes (encoded : asm.operandBytes stream here i = .ok bytes) :
    bytes.length = i.mode.width := by
  unfold operandBytes at encoded
  split at encoded
  case h_1 mode | h_2 mode =>
    cases encoded
    rw [mode]
    rfl
  case h_3 mode | h_10 mode | h_11 mode | h_12 mode | h_13 mode =>
    obtain ⟨value, -, whole⟩ := ok_of_bind encoded
    cases whole
    rw [mode]
    rfl
  all_goals
    next mode =>
      obtain ⟨value, -, whole⟩ := ok_of_bind encoded
      try simp only at whole
      split at whole <;> cases whole
      rw [mode]
      rfl

theorem length_instructionBytes (tabled : i.IsTabled)
    (encoded : asm.instructionBytes stream here i = .ok bytes) :
    bytes.length = (Line.instruction i).length := by
  obtain ⟨m, row, entry, found, -⟩ := tabled.row
  rw [instructionBytes, entry, Option.bind_some, found] at encoded
  obtain ⟨others, operand, whole⟩ := ok_of_bind encoded
  cases whole
  rw [List.length_cons, length_operandBytes operand, tabled.length]

theorem lineBytes_append (first second : List Line) :
    asm.lineBytes stream here (first ++ second) = (do
      let above ← asm.lineBytes stream here first
      let below ← asm.lineBytes stream (here + above.length) second
      return above ++ below) := by
  induction first generalizing here with
  | nil => simp [lineBytes, ok_bind]
  | cons line rest ih =>
    cases line with
    | instruction i =>
      simp only [List.cons_append, lineBytes, ih, bind_assoc, pure_bind, List.length_append,
        Nat.add_assoc, List.append_assoc]
    | label name | verbatim text | comment text | removed => exact ih

theorem streamBytes_append (first second : List Stream) :
    asm.streamBytes here (first ++ second) = (do
      let above ← asm.streamBytes here first
      let below ← asm.streamBytes (here + above.length) second
      return above ++ below) := by
  induction first generalizing here with
  | nil => simp [streamBytes, ok_bind]
  | cons s rest ih =>
    simp only [List.cons_append, streamBytes, ih, bind_assoc, pure_bind, List.length_append,
      Nat.add_assoc, List.append_assoc]

/-- The lines of a stream take up as many bytes as the first pass has counted. -/
theorem length_lineBytes {lines : List Line} (tabled : Tabled lines)
    (encoded : asm.lineBytes stream here lines = .ok bytes) : bytes.length = span lines := by
  induction lines generalizing here bytes with
  | nil =>
    cases encoded
    rfl
  | cons line rest ih =>
    obtain ⟨tabledHere, others⟩ := List.forall_mem_cons.mp tabled
    cases line with
    | instruction i =>
      obtain ⟨code, first, encoded⟩ := ok_of_bind encoded
      obtain ⟨more, second, whole⟩ := ok_of_bind encoded
      cases whole
      rw [List.length_append, length_instructionBytes tabledHere first, ih others second,
        span_cons]
    | verbatim text => cases tabledHere
    | label name | comment text | removed => simpa using ih others encoded

theorem length_streamBytes {streams : List Stream} (tabled : ∀ s ∈ streams, Tabled s.lines)
    (encoded : asm.streamBytes here streams = .ok bytes) :
    bytes.length = span (streams.flatMap Stream.lines) := by
  induction streams generalizing here bytes with
  | nil =>
    cases encoded
    rfl
  | cons s rest ih =>
    obtain ⟨own, others⟩ := List.forall_mem_cons.mp tabled
    obtain ⟨code, first, encoded⟩ := ok_of_bind encoded
    obtain ⟨more, second, whole⟩ := ok_of_bind encoded
    cases whole
    rw [List.length_append, length_lineBytes own first, ih others second, List.flatMap_cons,
      span_append]

end SecondPass

end Assembler

end Code

end Backend6502
