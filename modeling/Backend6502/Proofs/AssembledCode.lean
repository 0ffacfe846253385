import Mathlib
import Backend6502.Proofs.AddressedNames
import Backend6502.Proofs.Placement

/-!
# Assembled code

What the two passes of the assembler have to do with each other. The second pass turns every
instruction into a block of bytes (`Encodes`) and puts the blocks one after another (`Blocks`). The
first pass has counted just these blocks: the address of a label is where the blocks before it end,
and every operand that names the label has that address in its bytes (`assemble_agree`).
-/

namespace Backend6502

open Cpu (Mode Encoding)

namespace Cpu.Mode

/-- The bytes of an operand that stands for an address, in an instruction at `here`. -/
def Holds (mode : Mode) (here : Nat) (address : UInt16) (bytes : List UInt8) : Prop :=
  match mode with
  | .implied | .accumulator => bytes = []
  | .immediate => ∃ low, bytes = [low] ∧ low.toNat = address.toNat % 256
  | .relative =>
    ∃ distance, bytes = [distance] ∧ (here + 2 : Nat) + distance.toInt8.toInt = address.toNat
  | .zeroPage | .zeroPageX | .zeroPageY | .indirectX | .indirectY =>
    ∃ low, bytes = [low] ∧ low.toNat = address.toNat
  | .absolute | .absoluteX | .absoluteY | .indirect =>
    ∃ low high, bytes = [low, high] ∧ low.toNat + 256 * high.toNat = address.toNat

end Cpu.Mode

namespace Code

/-- The text in an operand that the assembler evaluates. -/
def Instruction.expression (i : Instruction) : List Char :=
  match i.mode with
  | .implied | .accumulator => []
  | .immediate => Assembler.withoutHash i.operand.toList
  | .relative => i.operand.toList
  | _ => AddressExpr.ofOperand i.operand.toList

namespace Assembler

variable {asm : Assembler} {stream name scope text : String} {here : Nat} {bytes code : List UInt8}
  {first second : List (String × Instruction)} {blocks : List (List UInt8)} {lines : List Line}
  {streams : List Stream} {start : UInt16}

/-- A block of bytes that an instruction at an address is encoded by. -/
structure Encodes (asm : Assembler) (stream : String) (here : Nat) (i : Instruction)
    (block : List UInt8) : Prop where
  size : (block.length : Int) = i.size.toInt
  opcode : ∃ row, Instruction.row? i.op i.mode = some row ∧ block.head? = some row.opcode
  operand : 0 < i.mode.width → ∃ address, asm.evaluate stream i.expression = .ok address ∧
    i.mode.Holds here address block.tail

/-- Blocks of bytes that encode instructions one after another, each with the name of its stream. -/
inductive Blocks (asm : Assembler) : Nat → List (String × Instruction) → List (List UInt8) → Prop
  | nil {here : Nat} : Blocks asm here [] []
  | cons {here : Nat} {stream : String} {i : Instruction} {block : List UInt8}
      {rest : List (String × Instruction)} {blocks : List (List UInt8)} :
      asm.Encodes stream here i block → Blocks asm (here + block.length) rest blocks →
      Blocks asm here ((stream, i) :: rest) (block :: blocks)

/-- The instructions of streams in order, each with the name of its stream. -/
def sites (streams : List Stream) : List (String × Instruction) :=
  streams.flatMap fun s => s.instructions.map (s.name, ·)

section Operands

variable {i : Instruction}

theorem toNat_bytes (address : UInt16) :
    address.toUInt8.toNat + 256 * (address >>> 8).toUInt8.toNat = address.toNat := by
  have bound := address.toNat_lt
  rw [UInt16.toNat_toUInt8, UInt16.toNat_toUInt8, UInt16.toNat_shiftRight]
  change address.toNat % 256 + 256 * ((address.toNat >>> 8) % 256) = address.toNat
  rw [Nat.shiftRight_eq_div_pow]
  omega

theorem toInt_ofInt {distance : Int} (low : -128 ≤ distance) (high : distance ≤ 127) :
    (UInt8.ofInt distance).toInt8.toInt = distance := by
  rw [← Int8.toInt_toBitVec, UInt8.toBitVec_toInt8]
  change (BitVec.ofNat 8 (distance % 256).toNat).toInt = distance
  rw [BitVec.toInt_ofNat', Int.toNat_of_nonneg (Int.emod_nonneg _ (by decide))]
  change (distance % (256 : Nat)).bmod 256 = distance
  rw [Int.emod_bmod]
  exact Int.bmod_eq_of_le (by omega) (by omega)

theorem holds_of_operandBytes (wide : 0 < i.mode.width)
    (encoded : asm.operandBytes stream here i = .ok bytes) :
    ∃ address, asm.evaluate stream i.expression = .ok address ∧
      i.mode.Holds here address bytes := by
  unfold operandBytes at encoded
  split at encoded
  case h_1 mode | h_2 mode =>
    rw [mode] at wide
    cases wide
  case h_3 mode =>
    obtain ⟨address, known, whole⟩ := ok_of_bind encoded
    cases whole
    simp only [Instruction.expression, mode]
    exact ⟨address, known, _, rfl, UInt16.toNat_toUInt8 address⟩
  case h_4 mode =>
    obtain ⟨address, known, whole⟩ := ok_of_bind encoded
    simp only at whole
    split at whole
    · next reach =>
      cases whole
      simp only [Instruction.expression, mode]
      refine ⟨address, known, _, rfl, ?_⟩
      rw [toInt_ofInt reach.1 reach.2]
      omega
    · cases whole
  case h_10 mode | h_11 mode | h_12 mode | h_13 mode =>
    obtain ⟨address, known, whole⟩ := ok_of_bind encoded
    cases whole
    simp only [Instruction.expression, mode]
    exact ⟨address, known, _, _, rfl, toNat_bytes address⟩
  all_goals
    next mode =>
      obtain ⟨address, known, whole⟩ := ok_of_bind encoded
      split at whole
      · cases whole
      · next small =>
        cases whole
        have small : ¬ (0xFF : Nat) < address.toNat := small
        simp only [Instruction.expression, mode]
        refine ⟨address, known, _, rfl, ?_⟩
        rw [UInt16.toNat_toUInt8]
        omega

theorem encodes_of_instructionBytes {block : List UInt8} (tabled : i.IsTabled)
    (encoded : asm.instructionBytes stream here i = .ok block) :
    asm.Encodes stream here i block := by
  have length := length_instructionBytes tabled encoded
  obtain ⟨m, row, entry, found, size⟩ := tabled.row
  rw [instructionBytes, entry, Option.bind_some, found] at encoded
  obtain ⟨bytes, operand, whole⟩ := ok_of_bind encoded
  cases whole
  refine ⟨?_, ⟨row, ?_, rfl⟩, fun wide => holds_of_operandBytes wide operand⟩
  · rw [length, tabled.length, size]
    cases i.mode <;> rfl
  · rw [Instruction.row?, entry, Option.bind_some, Encoding.find?, found]

end Operands

section Concatenation

variable {others : List (List UInt8)}

theorem Blocks.append (high : asm.Blocks here first blocks)
    (low : asm.Blocks (here + blocks.flatten.length) second others) :
    asm.Blocks here (first ++ second) (blocks ++ others) := by
  induction high with
  | nil => simpa using low
  | cons encodes rest ih =>
    refine .cons encodes (ih ?_)
    simpa [Nat.add_assoc] using low

theorem blocks_of_lineBytes (tabled : Tabled lines)
    (encoded : asm.lineBytes stream here lines = .ok bytes) :
    ∃ blocks, bytes = blocks.flatten ∧
      asm.Blocks here ((lines.filterMap Line.instruction?).map (stream, ·)) blocks := by
  induction lines generalizing here bytes with
  | nil =>
    cases encoded
    exact ⟨[], rfl, .nil⟩
  | cons line rest ih =>
    obtain ⟨tabledHere, others⟩ := List.forall_mem_cons.mp tabled
    cases line with
    | instruction i =>
      obtain ⟨block, first, encoded⟩ := ok_of_bind encoded
      obtain ⟨more, second, whole⟩ := ok_of_bind encoded
      cases whole
      obtain ⟨blocks, rfl, further⟩ := ih others second
      exact ⟨block :: blocks, rfl, .cons (encodes_of_instructionBytes tabledHere first) further⟩
    | verbatim text => cases tabledHere
    | label name | comment text | removed => exact ih others encoded

theorem blocks_of_streamBytes (tabled : ∀ s ∈ streams, Tabled s.lines)
    (encoded : asm.streamBytes here streams = .ok bytes) :
    ∃ blocks, bytes = blocks.flatten ∧ asm.Blocks here (sites streams) blocks := by
  induction streams generalizing here bytes with
  | nil =>
    cases encoded
    exact ⟨[], rfl, .nil⟩
  | cons s rest ih =>
    obtain ⟨own, others⟩ := List.forall_mem_cons.mp tabled
    obtain ⟨code, first, encoded⟩ := ok_of_bind encoded
    obtain ⟨more, second, whole⟩ := ok_of_bind encoded
    cases whole
    obtain ⟨blocks, rfl, high⟩ := blocks_of_lineBytes own first
    obtain ⟨lower, rfl, low⟩ := ih others second
    exact ⟨blocks ++ lower, List.flatten_append.symm, high.append low⟩

end Concatenation

section Success

variable {book new : AddressBook} {address final : UInt32} {index : Nat}

/-- The first pass only gets past lines that have a meaning of their own. -/
theorem tabled_of_placeLines
    (tabled : ∀ i ∈ lines.filterMap Line.instruction?, i.IsTabled)
    (placed : placeLines stream book address index lines = (new, .ok final)) : Tabled lines := by
  induction lines generalizing book address index with
  | nil => exact fun line inside => nomatch inside
  | cons line rest ih =>
    have others : ∀ i ∈ rest.filterMap Line.instruction?, i.IsTabled := by
      intro i inside
      refine tabled i ?_
      rw [List.filterMap_cons]
      split
      · exact inside
      · exact List.mem_cons_of_mem _ inside
    refine List.forall_mem_cons.mpr ?_
    cases line with
    | label name =>
      rw [placeLines] at placed
      split at placed
      · cases placed
      · split at placed
        · cases placed
        · exact ⟨trivial, ih others placed⟩
    | instruction i =>
      rw [placeLines] at placed
      split at placed
      · cases placed
      · exact ⟨tabled i List.mem_cons_self, ih others placed⟩
    | verbatim text => cases placed
    | comment text | removed => exact ⟨trivial, ih others placed⟩

theorem tabled_of_placeStreams (tabled : ∀ s ∈ streams, ∀ i ∈ s.instructions, i.IsTabled)
    (placed : placeStreams book address streams = (new, .ok final)) :
    ∀ s ∈ streams, Tabled s.lines := by
  induction streams generalizing book address with
  | nil => exact fun s inside => nomatch inside
  | cons s rest ih =>
    rw [placeStreams] at placed
    split at placed
    · next middle next here =>
      obtain ⟨own, others⟩ := List.forall_mem_cons.mp tabled
      exact List.forall_mem_cons.mpr ⟨tabled_of_placeLines own here, ih others placed⟩
    · cases placed

/-- What becomes of a run without an error: both passes have ended. -/
theorem passes_of_assemble (assembled : (asm.assemble start streams).2 = .ok code) :
    ∃ labels final, placeStreams asm.labels start.toUInt32 streams = (labels, .ok final) ∧
      (asm.assemble start streams).1 = { asm with labels } ∧
      { asm with labels }.streamBytes start.toNat streams = .ok code := by
  unfold assemble at assembled ⊢
  split at assembled
  · cases assembled
  · next labels final placed => exact ⟨labels, final, placed, rfl, assembled⟩

end Success

section Names

variable {address : UInt16}

theorem fullName_of_dot (dotted : name.toList.head? = some '.') :
    fullName stream name = stream ++ name := by
  unfold fullName
  split
  · rfl
  · next other =>
    cases same : name.toList with
    | nil => simp [same] at dotted
    | cons c rest =>
      rw [same] at dotted
      cases dotted
      exact absurd same (other rest)

theorem fullName_of_not_dot (plain : name.toList.head? ≠ some '.') :
    fullName stream name = name := by
  unfold fullName
  split
  · next rest same => simp [same] at plain
  · rfl

theorem upper_append (first second : String) :
    Text.upper (first ++ second) = Text.upper first ++ Text.upper second := by
  simp [Text.upper]

/-- Spellings of a label mean the same, those with a dot inside one stream. -/
theorem upper_fullName
    (same : Text.upper text = Text.upper name)
    (within : text.toList.head? = some '.' → scope = stream) :
    Text.upper (fullName scope text) = Text.upper (fullName stream name) := by
  have dots := Text.head?_iff_of_upper same (c := '.') rfl
  by_cases dotted : text.toList.head? = some '.'
  · rw [fullName_of_dot dotted, fullName_of_dot (dots.mp dotted), within dotted, upper_append,
      upper_append, same]
  · rw [fullName_of_not_dot dotted, fullName_of_not_dot (mt dots.mpr dotted), same]

theorem evaluate_label
    (known : asm.labels.find? (fullName stream name) = some address)
    (names : AddressExpr.isName (AddressExpr.withoutDot text.toList) = true)
    (same : Text.upper text = Text.upper name)
    (within : text.toList.head? = some '.' → scope = stream) :
    asm.evaluate scope text.toList = .ok address := by
  have found : asm.resolve scope (.ofList text.toList) = some address := by
    rw [AddressBook.find?, ← upper_fullName same within, ← AddressBook.find?] at known
    rw [String.ofList_toList, resolve, known]
  rw [evaluate, AddressExpr.evaluate_name names found]
  rfl

end Names

section Agreement

/-- What the addresses of labels have to do with the blocks of the code. -/
structure Agree (asm : Assembler) (start : Nat) (streams : List Stream)
    (blocks : List (List UInt8)) : Prop where
  encoded : asm.Blocks start (sites streams) blocks
  fits : start + blocks.flatten.length ≤ 0x10000
  labels : ∀ earlier s later above name below, streams = earlier ++ s :: later →
    s.lines = above ++ .label name :: below →
    ∃ address : UInt16, asm.address? (fullName s.name name) = some address ∧
      address.toNat = start + (blocks.take
        (sites (earlier ++ [{ s with lines := above }])).length).flatten.length ∧
      ∀ scope text, AddressExpr.isName (AddressExpr.withoutDot text.toList) = true →
        Text.upper text = Text.upper name → (text.toList.head? = some '.' → scope = s.name) →
        asm.evaluate scope text.toList = .ok address

theorem sites_cut {earlier later : List Stream} {s : Stream} {above below : List Line}
    (cut : s.lines = above ++ below) :
    sites (earlier ++ s :: later) = sites (earlier ++ [{ s with lines := above }]) ++
      sites ({ s with lines := below } :: later) := by
  simp [sites, Stream.instructions, cut]

theorem Blocks.length_take
    (encoded : asm.Blocks here (first ++ second) blocks) :
    (blocks.take first.length).flatten.length =
      (first.map fun site => (Line.instruction site.2).length).sum := by
  induction first generalizing here blocks with
  | nil => rfl
  | cons site first ih =>
    cases encoded with
    | cons encodes rest =>
      rename_i stream i block blocks
      have size : (Line.instruction i).length = block.length := by
        rw [Line.length, Line.size, ← encodes.size, Int.toNat_natCast]
      simp only [List.length_cons, List.take_succ_cons, List.flatten_cons, List.length_append,
        List.map_cons, List.sum_cons, ih rest, size]

theorem sum_lengths (tabled : Tabled lines) :
    ((lines.filterMap Line.instruction?).map fun i => (Line.instruction i).length).sum =
      span lines := by
  induction lines with
  | nil => rfl
  | cons line rest ih =>
    obtain ⟨here, others⟩ := List.forall_mem_cons.mp tabled
    cases line with
    | instruction i => simpa [Line.instruction?] using ih others
    | verbatim text => cases here
    | label name | comment text | removed => exact (ih others).trans (Nat.zero_add _).symm

theorem sum_sites (tabled : ∀ s ∈ streams, Tabled s.lines) :
    ((sites streams).map fun site => (Line.instruction site.2).length).sum =
      span (streams.flatMap Stream.lines) := by
  have all : Tabled (streams.flatMap Stream.lines) := by
    intro line inside
    obtain ⟨s, member, here⟩ := List.mem_flatMap.mp inside
    exact tabled s member line here
  rw [← sum_lengths all]
  simp [sites, Stream.instructions, List.map_flatMap, List.filterMap_flatMap, Function.comp_def]

/--
The passes of the assembler agree. If streams of instructions from the table are assembled, the code
consists of blocks for the instructions in order, each as long as its instruction says and with the
opcode of the table first. Every label has the address at which the blocks before it end, which is
below `$10000`, and every operand that names the label stands for that address: in all streams, or
in the stream of the label if it starts with a dot. The code ends at `$10000` at the latest.
-/
theorem assemble_agree (tabled : ∀ s ∈ streams, ∀ i ∈ s.instructions, i.IsTabled)
    (assembled : (asm.assemble start streams).2 = .ok code) :
    ∃ blocks, code = blocks.flatten ∧
      Agree (asm.assemble start streams).1 start.toNat streams blocks := by
  obtain ⟨labels, final, placed, same, encoded⟩ := passes_of_assemble assembled
  have known := tabled_of_placeStreams tabled placed
  have low : start.toUInt32.toNat ≤ 0x10000 := Nat.le_of_lt (by simpa using start.toNat_lt)
  obtain ⟨blocks, rfl, laidOut⟩ := blocks_of_streamBytes known encoded
  rw [same]
  refine ⟨blocks, rfl, laidOut, ?_, ?_⟩
  · rw [length_streamBytes known encoded]
    rcases List.eq_nil_or_concat streams with rfl | ⟨earlier, s, rfl⟩
    · simpa using low
    · rw [List.concat_eq_append] at known placed ⊢
      have fits := (laid_of_placeStreams known low placed).fits
      rw [UInt16.toNat_toUInt32] at fits
      simpa [Nat.add_assoc] using fits
  · rintro earlier s later above name below rfl cut
    have own : Tabled s.lines := known s (by simp)
    have laid := laid_of_placeStreams known low placed
    rw [UInt16.toNat_toUInt32] at laid
    obtain ⟨small, found⟩ := laid.labels above name below cut
    refine ⟨_, found, ?_, fun scope text names spelled within =>
      evaluate_label found names spelled within⟩
    have upper : ∀ t ∈ earlier ++ [{ s with lines := above }], Tabled t.lines := by
      intro t inside
      rcases List.mem_append.mp inside with inside | inside
      · exact known t (List.mem_append_left _ inside)
      · rw [List.mem_singleton.mp inside]
        exact own.mono (by simp [cut])
    rw [sites_cut cut] at laidOut
    rw [UInt16.toNat_ofNat_of_lt' small, laidOut.length_take, sum_sites upper]
    simp [Nat.add_assoc]

/-- Waits for a byte of a table, after a call of code that stands behind it. -/
def waiting : Stream where
  name := "main"
  lines := [.label "main", .instruction ⟨.known .jsr, .absolute, "Pause", 6, 0, 3, false⟩,
    .label ".loop", .instruction ⟨.known .lda, .absoluteY, "table,Y", 4, 5, 3, false⟩,
    .instruction (.branch .bne ".Loop"), .instruction ⟨.known .rts, .implied, "", 6, 0, 1, false⟩]

/-- Has a label of its own by the same name. -/
def pausing : Stream where
  name := "pause"
  lines := [.label "pause", .comment "X times", .label ".loop",
    .instruction ⟨.known .dex, .implied, "", 2, 0, 1, false⟩, .removed,
    .instruction (.branch .bne ".loop"), .instruction ⟨.known .rts, .implied, "", 6, 0, 1, false⟩]

/-- The code fills the memory up to its last byte. -/
theorem waiting_agree :
    (((ofSymbols [("table", 0x300)]).assemble 0xFFF3 [waiting, pausing]).2 =
      .ok [0x20, 0xFC, 0xFF, 0xB9, 0x00, 0x03, 0xD0, 0xFB, 0x60, 0xCA, 0xD0, 0xFD, 0x60]) ∧
    ∃ blocks, [0x20, 0xFC, 0xFF, 0xB9, 0x00, 0x03, 0xD0, 0xFB, 0x60, 0xCA, 0xD0, 0xFD, 0x60] =
        blocks.flatten ∧
      Agree ((ofSymbols [("table", 0x300)]).assemble 0xFFF3 [waiting, pausing]).1 0xFFF3
        [waiting, pausing] blocks := by
  have assembled : ((ofSymbols [("table", 0x300)]).assemble 0xFFF3 [waiting, pausing]).2 =
      .ok [0x20, 0xFC, 0xFF, 0xB9, 0x00, 0x03, 0xD0, 0xFB, 0x60, 0xCA, 0xD0, 0xFD, 0x60] := by
    decide +kernel
  exact ⟨assembled, assemble_agree (by decide +kernel) assembled⟩

end Agreement

end Assembler

end Code

end Backend6502
