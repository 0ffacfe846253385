import Backend6502.Machine
import Backend6502.Proofs.AssembledCode
import Backend6502.Proofs.CompiledFunctions
import Backend6502.Proofs.FinalStreams
import Backend6502.Proofs.OperandTexts

/-!
# Operands of variables

An operand that code generation writes for a variable is assembled to the address of that variable,
if no other name is spelled like it: the assembler does not tell capitals from small letters and
asks for labels first, while the symbol table tells all spellings apart. Without this condition the
operand may stand for a function (`not_addressed_of_load`).
-/

namespace Backend6502

open Cpu (Mode Mnemonic)

variable {level : Int64} {t : Table} {addresses : List (String × UInt16)}

namespace Cpu.Mode

/-- Is the operand the address of a place in memory? -/
def isMemory : Mode → Bool
  | .implied | .accumulator | .immediate | .relative => false
  | _ => true

/-- The number that bytes stand for, the lowest one first. -/
def littleEndian : List UInt8 → Nat
  | [] => 0
  | low :: rest => low.toNat + 256 * littleEndian rest

theorem width_pos_of_isMemory {mode : Mode} (memory : mode.isMemory = true) : 0 < mode.width := by
  revert memory
  cases mode <;> decide

theorem Holds.littleEndian_eq {mode : Mode} (memory : mode.isMemory = true) {here : Nat}
    {address : UInt16} {bytes : List UInt8} (holds : mode.Holds here address bytes) :
    littleEndian bytes = address.toNat := by
  cases mode with
  | implied | accumulator | immediate | relative => cases memory
  | zeroPage | zeroPageX | zeroPageY | indirectX | indirectY =>
    obtain ⟨low, rfl, same⟩ := holds
    exact same
  | absolute | absoluteX | absoluteY | indirect =>
    obtain ⟨low, high, rfl, same⟩ := holds
    exact same

end Cpu.Mode

namespace Code

theorem Instruction.expression_of_isMemory (i : Instruction) (memory : i.mode.isMemory = true) :
    i.expression = AddressExpr.ofOperand i.operand.toList := by
  unfold expression
  cases mode : i.mode with
  | implied | accumulator | immediate | relative =>
    rw [mode] at memory
    cases memory
  | _ => rfl

section Books

variable {name : String} {address : UInt16}

theorem AddressBook.mem_of_find? {book : AddressBook} (found : book.find? name = some address) :
    (Text.upper name, address) ∈ book.entries := by
  obtain ⟨above, below, same, -⟩ := List.lookup_eq_some_iff.mp found
  rw [same]
  exact List.mem_append_right _ List.mem_cons_self

theorem AddressBook.exists_of_find?_ofList {pairs : List (String × UInt16)}
    (found : (ofList pairs).find? name = some address) :
    ∃ given, (given, address) ∈ pairs ∧ Text.upper given = Text.upper name := by
  have entries (book : AddressBook) : ∀ entry ∈ (pairs.foldl (fun book pair =>
      book.insert pair.1 pair.2) book).entries, entry ∈ book.entries ∨
        ∃ pair ∈ pairs, entry = (Text.upper pair.1, pair.2) := by
    clear found
    induction pairs generalizing book with
    | nil => exact fun entry inside => .inl inside
    | cons pair pairs ih =>
      intro entry inside
      rcases ih _ entry inside with before | ⟨other, later, same⟩
      · rcases List.mem_cons.mp before with rfl | before
        · exact .inr ⟨pair, List.mem_cons_self, rfl⟩
        · exact .inl before
      · exact .inr ⟨other, List.mem_cons_of_mem _ later, same⟩
  rcases entries {} _ (mem_of_find? found) with none | ⟨pair, inside, same⟩
  · cases none
  · obtain ⟨names, rfl⟩ := Prod.mk.inj same
    exact ⟨pair.1, inside, names.symm⟩

end Books

namespace Assembler

variable {book new : AddressBook} {address final : UInt32} {entry : String × UInt16}

/-- The first pass enters nothing but labels of the lines. -/
theorem mem_of_placeLines {stream : String} {index : Nat} {lines : List Line}
    (placed : placeLines stream book address index lines = (new, .ok final))
    (inside : entry ∈ new.entries) :
    entry ∈ book.entries ∨ ∃ label ∈ labelNames lines,
      entry.1 = Text.upper (fullName stream label) := by
  induction lines generalizing book address index with
  | nil =>
    cases placed
    exact .inl inside
  | cons line rest ih =>
    have further {book : AddressBook} {address : UInt32} {index : Nat}
        (placed : placeLines stream book address index rest = (new, .ok final)) :
        entry ∈ book.entries ∨
          ∃ label ∈ labelNames (line :: rest), entry.1 = Text.upper (fullName stream label) := by
      refine (ih placed).imp_right fun ⟨label, later, same⟩ => ⟨label, ?_, same⟩
      rw [mem_labelNames] at later ⊢
      exact List.mem_cons_of_mem _ later
    cases line with
    | label name =>
      rw [placeLines] at placed
      split at placed
      · cases placed
      · split at placed
        · cases placed
        · rcases further placed with before | found
          · rcases List.mem_cons.mp before with rfl | before
            · exact .inr ⟨name, mem_labelNames.mpr List.mem_cons_self, rfl⟩
            · exact .inl before
          · exact .inr found
    | instruction i =>
      rw [placeLines] at placed
      split at placed
      · cases placed
      · exact further placed
    | verbatim text => cases placed
    | comment text => exact further placed
    | removed => exact further placed

theorem mem_of_placeStreams {streams : List Stream}
    (placed : placeStreams book address streams = (new, .ok final)) (inside : entry ∈ new.entries) :
    entry ∈ book.entries ∨ ∃ s ∈ streams, ∃ label ∈ labelNames s.lines,
      entry.1 = Text.upper (fullName s.name label) := by
  induction streams generalizing book address with
  | nil =>
    cases placed
    exact .inl inside
  | cons s rest ih =>
    rw [placeStreams] at placed
    split at placed
    · next middle next here =>
      rcases ih placed with before | ⟨t, later, found⟩
      · refine (mem_of_placeLines here before).imp_right fun found => ⟨s, List.mem_cons_self, found⟩
      · exact .inr ⟨t, List.mem_cons_of_mem _ later, found⟩
    · cases placed

end Assembler

theorem mem_instructions {s : Stream} {i : Instruction} :
    i ∈ s.instructions ↔ .instruction i ∈ s.lines := by
  constructor
  · intro inside
    obtain ⟨line, among, same⟩ := List.mem_filterMap.mp inside
    cases line <;> cases same
    exact among
  · exact fun inside => List.mem_filterMap.mpr ⟨_, inside, rfl⟩

def LabelledBy (name : String) (lines : List Line) : Prop :=
  ∀ label ∈ labelNames lines, label = name ∨ label.toList.head? = some '.'

theorem lasting_labelledBy (name : String) : Lasting (LabelledBy name) where
  drops drops labelled := by
    unfold LabelledBy
    rw [labelNames_of_drops drops]
    exact labelled
  repaired number made labelled := by
    intro label inside
    simp only [labelNames_append, List.mem_append] at inside
    rcases inside with up | inside | down
    · exact labelled label (by simp [up])
    · right
      rcases Site.labelNames_lines inside with rfl | ⟨rfl, -⟩
      · simp [Site.pastLabel]
      · simp [Site.jumpLabel]
    · exact labelled label (by simp [down])

theorem Site.listed_lines (site : Site) (number : Nat) : Listed (site.lines number) := by
  have branch {m : Mnemonic} (branches : m.isBranch = true) (target : String) :
      ({ Instruction.branch m target with isProtected := true } : Instruction).IsTabled :=
    Instruction.isTabled_branch branches target
  intro i inside
  unfold lines at inside
  cases decision : site.decision <;>
    simp only [decision, guarded, List.mem_cons, Line.instruction.injEq, reduceCtorEq,
      List.not_mem_nil, or_false, false_or] at inside
  · rcases inside with rfl | rfl
    · exact branch (Test.isBranch_branch _ _) _
    · exact Instruction.isTabled_jump _
  · rcases inside with rfl | rfl | rfl
    · exact branch rfl _
    · exact branch (Test.isBranch_branch _ _) _
    · exact Instruction.isTabled_jump _
  · rcases inside with rfl | rfl | rfl
    · exact branch (Test.isBranch_branch _ _) _
    · exact branch rfl _
    · exact Instruction.isTabled_jump _

theorem lasting_listed : Lasting Listed where
  drops drops listed := by
    intro i inside
    rcases instruction_of_drops drops inside with before | ⟨j, -, -, rfl⟩
    · exact listed i before
    · exact Instruction.isTabled_jump _
  repaired number made listed := by
    intro i inside
    simp only [List.mem_append] at inside
    rcases inside with up | inside | down
    · exact listed i (by simp [up])
    · exact Site.listed_lines _ number i inside
    · exact listed i (by simp [down])

end Code

open Code (Stream Line Assembler Listed LabelledBy labelNames AddressExpr.isName)
open Symbols (Table Function Variable scratchCell codeStart)

/--
The labels of a finished stream are its name or start with a dot, and its instructions are tabled.
-/
theorem finished_of_generate {g next : Generator} {f : Function} {s finished : Stream}
    (generated : g.generate f = (next, .ok s)) (done : finish level s = .ok finished) :
    LabelledBy f.name finished.lines ∧ Listed finished.lines := by
  obtain ⟨context, ok, rfl⟩ := Generator.function_of_generate generated
  have places : Lowering.Places (f.name :: Lowering.sourceTexts f.labels) (fun _ => True)
      (Lowering.function f) := Lowering.places_function fun _ _ => trivial
  have grows := (places _ _ fun _ _ => ⟨trivial, fun _ _ => trivial⟩).of_ok ok
  refine ⟨finish_lasting (Code.lasting_labelledBy f.name) done fun label inside => ?_,
    finish_lasting Code.lasting_listed done (grows.listed fun _ inside => by cases inside)⟩
  rcases grows.labelled.mem_cases rfl inside with own | ⟨l, text, -⟩
  · rcases List.mem_cons.mp own with rfl | source
    · exact .inl rfl
    · obtain ⟨name, -, rfl⟩ := List.mem_map.mp source
      exact .inr (Lowering.Label.head?_text _)
  · exact .inr (text ▸ l.head?_text)

theorem streams_of_compile {c : Compiled} (compiled : (compile t level).2 = .ok c) :
    ∀ s ∈ c.streams,
      (∃ f ∈ t.functions, s.name = f.name) ∧ LabelledBy s.name s.lines ∧ Listed s.lines := by
  obtain ⟨products, ran⟩ := Compiler.exists_ran compiled
  intro s inside
  rw [ran.streams] at inside
  obtain ⟨p, among, rfl⟩ := List.mem_map.mp inside
  have made := ran.made p among
  have member : p.function ∈ t.functions := by
    have kept : p.function ∈ t.functions.filter _ := ran.functions ▸ List.mem_map_of_mem among
    exact (List.mem_filter.mp kept).1
  have generated := made.generates { symbols := t } rfl fun _ inside => by cases inside
  rw [made.stream_name]
  exact ⟨⟨p.function, member, rfl⟩, finished_of_generate generated made.finishes⟩

namespace Machine

/-- What a program in memory was made from. -/
theorem load_eq_ok {c : Compiled} {t : Table} {m : Machine} (loaded : load c t = .ok m) :
    t.layout = .ok m.addresses ∧ ∃ code,
      ((Assembler.ofSymbols m.addresses).assemble codeStart (startup :: c.streams)).2 = .ok code ∧
        m.cpu.memory = ({} : Cpu.Memory).writeBytes codeStart code := by
  unfold load at loaded
  split at loaded
  · cases loaded
  · split at loaded
    · cases loaded
    · next addresses laid =>
      split at loaded
      · cases loaded
      · next code assembled =>
        cases loaded
        exact ⟨laid, code, by rw [assembled], rfl⟩

end Machine

namespace Symbols

variable {t : Table} {addresses : List (String × UInt16)}

/-- The variables that have addresses, in their order. -/
theorem names_of_placeVariables {zeroPage ram : Int64} {vars : List Variable}
    {placed : List (String × UInt16)} (done : placeVariables zeroPage ram vars = .ok placed) :
    placed.map (·.1) = (vars.filter fun v => !v.isConst).map (·.name) := by
  induction vars generalizing zeroPage ram placed with
  | nil =>
    cases done
    rfl
  | cons v vars ih =>
    rcases placeVariables_cons done with ⟨const, others⟩ | ⟨stored, rest, cases⟩
    · rw [List.filter_cons_of_neg (by simp [const])]
      exact ih others
    · rw [List.filter_cons_of_pos (by simp [stored])]
      rcases cases with ⟨-, rfl, others⟩ | ⟨-, -, rfl, -, others⟩ | ⟨-, -, rfl, -, others⟩
      all_goals rw [List.map_cons, List.map_cons, ih others]

theorem Table.perm_layout (laid : t.layout = .ok addresses) : (addresses.map (·.1)).Perm
      (scratchCell :: (t.vars.filter fun v => !v.isConst).map (·.name)) := by
  obtain ⟨placed, done, same⟩ := Assembler.ok_of_bind laid
  cases same
  rw [← names_of_placeVariables done]
  exact (perm_insertBy _ _ _).map _

theorem Table.Defined.nodup_layout (defined : t.Defined) (laid : t.layout = .ok addresses) :
    (addresses.map (·.1)).Nodup := by
  rw [(t.perm_layout laid).nodup_iff, List.nodup_cons]
  refine ⟨fun inside => ?_, ?_⟩
  · obtain ⟨v, member, same⟩ := List.mem_map.mp inside
    have free := defined.isReserved_eq_false v (List.mem_filter.mp member).1
    rw [same] at free
    cases free
  · exact defined.names_nodup.sublist (List.filter_sublist.map _)

/-- No other name that the assembler knows is this one in other capitals or small letters. -/
structure Table.Spells (t : Table) (name : String) : Prop where
  stored : ∀ v ∈ t.vars, v.isConst = false → Text.upper v.name = Text.upper name → v.name = name
  scratch : Text.upper scratchCell ≠ Text.upper name
  functions : ∀ f ∈ t.functions, Text.upper f.name ≠ Text.upper name

end Symbols

theorem lookup_of_mem {pairs : List (String × UInt16)} (distinct : (pairs.map (·.1)).Nodup)
    {name : String} {address : UInt16} (inside : (name, address) ∈ pairs) :
    pairs.lookup name = some address := by
  induction pairs with
  | nil => cases inside
  | cons pair rest ih =>
    obtain ⟨new, others⟩ := List.nodup_cons.mp distinct
    rcases List.mem_cons.mp inside with rfl | later
    · exact List.lookup_cons_self
    · have differs : name ≠ pair.1 := by
        rintro rfl
        exact new (List.mem_map_of_mem (f := (·.1)) later)
      rw [List.lookup_cons, beq_false_of_ne differs]
      exact ih others later

namespace Code.Assembler

variable {stream : String} {here : Nat} {sites : List (String × Instruction)}
  {blocks : List (List UInt8)} {i : Instruction} {block : List UInt8}

/-- The names without dots that stand for something: labels of functions, and symbols. -/
structure Knows (asm : Assembler) (functions : String → Prop) (symbols : List (String × UInt16)) :
    Prop where
  label : ∀ text address, '.' ∉ text.toList → asm.labels.find? text = some address →
    ∃ name, functions name ∧ Text.upper name = Text.upper text
  symbol : ∀ text address, asm.symbols.find? text = some address →
    ∃ name, (name, address) ∈ symbols ∧ Text.upper name = Text.upper text

variable {asm : Assembler} {functions : String → Prop} {symbols : List (String × UInt16)}

theorem Knows.resolve (knows : asm.Knows functions symbols) {text : String} {address : UInt16}
    (undotted : '.' ∉ text.toList) (found : asm.resolve stream text = some address) :
    (∃ name, functions name ∧ Text.upper name = Text.upper text) ∨
      ∃ name, (name, address) ∈ symbols ∧ Text.upper name = Text.upper text := by
  have plain : text.toList.head? ≠ some '.' := fun head => undotted (List.mem_of_head? head)
  rw [Assembler.resolve, fullName_of_not_dot plain] at found
  split at found
  · next known => exact .inl (knows.label text _ undotted known)
  · exact .inr (knows.symbol text address found)

theorem upper_ne_number {name : String} (names : AddressExpr.isName name.toList = true) (n : Nat) :
    Text.upper name ≠ Text.upper (toString n) := by
  intro same
  obtain ⟨c, rest, digits, digit⟩ := AddressExpr.exists_toString n
  have low : Text.isLow c = true := by
    obtain ⟨range, only, lower, upper⟩ :=
      Text.inRanges_iff.mp (AddressExpr.inRanges_of_isDigit digit)
    cases List.mem_singleton.mp only
    simp only [Text.isLow, Bool.and_eq_true, decide_eq_true_eq]
    omega
  have head := (Text.head?_iff_of_upper same low).mpr (by rw [digits]; rfl)
  cases letters : name.toList with
  | nil =>
    rw [letters] at head
    cases head
  | cons d others =>
    rw [letters] at head names
    cases head
    rw [AddressExpr.isName, AddressExpr.startsName_of_isDigit digit] at names
    cases names

theorem Knows.resolve_number (knows : asm.Knows functions symbols)
    (functionNames : ∀ name, functions name → AddressExpr.isName name.toList = true)
    (symbolNames : ∀ name ∈ symbols.map (·.1), AddressExpr.isName name.toList = true)
    (stream : String) (n : Nat) : asm.resolve stream (toString n) = none := by
  cases found : asm.resolve stream (toString n) with
  | none => rfl
  | some address =>
    have undotted : '.' ∉ (toString n).toList := by
      intro inside
      cases AddressExpr.isDigit_of_mem_toString inside
    rcases knows.resolve undotted found with ⟨name, known, same⟩ | ⟨name, known, same⟩
    · exact absurd same (upper_ne_number (functionNames name known) n)
    · exact absurd same (upper_ne_number (symbolNames name (List.mem_map_of_mem (f := (·.1)) known))
        n)

/--
After the first pass the assembler knows functions by their names, and the symbols given to it.
-/
theorem knows_of_placeStreams {streams : List Stream} {start final : UInt32} {labels : AddressBook}
    (labelled : ∀ s ∈ streams, LabelledBy s.name s.lines)
    (named : ∀ s ∈ streams, s.name ∈ labelNames s.lines → functions s.name)
    (placed : placeStreams {} start streams = (labels, .ok final)) :
    ({ Assembler.ofSymbols symbols with labels } : Assembler).Knows functions symbols where
  label text address undotted found := by
    rcases mem_of_placeStreams placed (AddressBook.mem_of_find? found) with none |
      ⟨s, among, label, inside, same⟩
    · cases none
    · by_cases dotted : label.toList.head? = some '.'
      · rw [fullName_of_dot dotted] at same
        have dot : '.' ∈ (s.name ++ label).toList := by
          rw [String.toList_append]
          exact List.mem_append_right _ (List.mem_of_head? dotted)
        exact absurd ((Text.mem_iff_of_upper same rfl).mpr dot) undotted
      · cases (labelled s among label inside).resolve_right dotted
        rw [fullName_of_not_dot dotted] at same
        exact ⟨s.name, named s among inside, same.symm⟩
  symbol text address found := AddressBook.exists_of_find?_ofList found

theorem Blocks.encodes_of_mem (encoded : asm.Blocks here sites blocks)
    (inside : ((stream, i), block) ∈ sites.zip blocks) :
    ∃ here, asm.Encodes stream here i block := by
  induction encoded with
  | nil => cases inside
  | cons encodes _ ih =>
    rw [List.zip_cons_cons] at inside
    rcases List.mem_cons.mp inside with same | later
    · cases same
      exact ⟨_, encodes⟩
    · exact ih later

theorem Blocks.exists_block (encoded : asm.Blocks here sites blocks) {site : String × Instruction}
    (inside : site ∈ sites) : ∃ block, (site, block) ∈ sites.zip blocks := by
  induction encoded with
  | nil => cases inside
  | cons _ _ ih =>
    rcases List.mem_cons.mp inside with rfl | later
    · exact ⟨_, List.mem_cons_self⟩
    · obtain ⟨block, found⟩ := ih later
      exact ⟨block, List.mem_cons_of_mem _ found⟩

theorem evaluate_of_encodes (encodes : asm.Encodes stream here i block)
    (memory : i.mode.isMemory = true) :
    ∃ address, AddressExpr.evaluate (asm.resolve stream) (AddressExpr.ofOperand i.operand.toList) =
        .ok address ∧ Mode.littleEndian block.tail = address.toNat := by
  obtain ⟨address, value, holds⟩ := encodes.operand (Mode.width_pos_of_isMemory memory)
  refine ⟨address, ?_, holds.littleEndian_eq memory⟩
  rw [i.expression_of_isMemory memory, evaluate] at value
  cases result :
    AddressExpr.evaluate (asm.resolve stream) (AddressExpr.ofOperand i.operand.toList) with
  | ok found =>
    rw [result] at value
    cases value
    rfl
  | error problem =>
    rw [result] at value
    cases value

end Code.Assembler

open Code.Assembler (sites)
open Lowering (Place)

/--
The code in memory consists of blocks for the instructions of a program. Where the operand of an
instruction is that of a place of the variable, the block has the address of the variable in it,
plus the offset of the place.
-/
structure Machine.Addressed (m : Machine) (t : Table) (streams : List Stream) (name : String)
    (blocks : List (List UInt8)) : Prop where
  memory : m.cpu.memory = ({} : Cpu.Memory).writeBytes codeStart blocks.flatten
  encoded : ((Assembler.ofSymbols m.addresses).assemble codeStart streams).1.Blocks codeStart.toNat
    (sites streams) blocks
  operands : ∀ stream i block, ((stream, i), block) ∈ (sites streams).zip blocks →
    ∀ (place : Place) (high : Bool) (mode : Mode), place.isMemory = true → place.name = name →
      place.operand? t high = some (mode, i.operand) → i.mode.isMemory = true →
      ∃ address, m.addresses.lookup name = some address ∧
        Mode.littleEndian block.tail = (address + Symbols.addressOf place.offset).toNat

theorem lookup_of_resolve {asm : Assembler} {stream name : String} {address : UInt16}
    (defined : t.Defined) (laid : t.layout = .ok addresses) (spells : t.Spells name)
    (names : Code.AddressExpr.isName name.toList = true)
    (knows : asm.Knows (fun name => ∃ f ∈ t.functions, name = f.name) addresses)
    (found : asm.resolve stream name = some address) : addresses.lookup name = some address := by
  rcases knows.resolve (Code.AddressExpr.dot_notMem_of_isName names) found with
    ⟨_, ⟨f, member, rfl⟩, same⟩ | ⟨given, inside, same⟩
  · exact absurd same (spells.functions f member)
  · refine lookup_of_mem (defined.nodup_layout laid) ?_
    have among := (t.perm_layout laid).mem_iff.mp (List.mem_map_of_mem (f := (·.1)) inside)
    rcases List.mem_cons.mp among with rfl | stored
    · exact absurd same spells.scratch
    · obtain ⟨u, member, rfl⟩ := List.mem_map.mp stored
      obtain ⟨member, stored⟩ := List.mem_filter.mp member
      rwa [spells.stored u member (by simpa using stored) same] at inside

theorem isName_of_layout (laid : t.layout = .ok addresses)
    (names : ∀ v ∈ t.vars, Code.AddressExpr.isName v.name.toList = true) :
    ∀ name ∈ addresses.map (·.1), Code.AddressExpr.isName name.toList = true := by
  intro name inside
  rcases List.mem_cons.mp ((t.perm_layout laid).mem_iff.mp inside) with rfl | stored
  · decide +kernel
  · obtain ⟨v, member, rfl⟩ := List.mem_map.mp stored
    exact names v (List.mem_filter.mp member).1

namespace Machine

/-- The blocks of a program in memory, and the names that they were made with. -/
theorem exists_blocks {t : Table} {level : Int64} {c : Compiled} {m : Machine}
    (compiled : (compile t level).2 = .ok c) (loaded : load c t = .ok m) :
    ∃ blocks, m.cpu.memory = ({} : Cpu.Memory).writeBytes codeStart blocks.flatten ∧
      ((Assembler.ofSymbols m.addresses).assemble codeStart (startup :: c.streams)).1.Blocks
        codeStart.toNat (sites (startup :: c.streams)) blocks ∧
      ((Assembler.ofSymbols m.addresses).assemble codeStart (startup :: c.streams)).1.Knows
        (fun name => ∃ f ∈ t.functions, name = f.name) m.addresses := by
  have streams := streams_of_compile compiled
  obtain ⟨-, code, assembled, memory⟩ := load_eq_ok loaded
  obtain ⟨labels, final, placed, same, encoded⟩ := Assembler.passes_of_assemble assembled
  have tabled : ∀ s ∈ startup :: c.streams, ∀ i ∈ s.instructions, i.IsTabled := by
    refine List.forall_mem_cons.mpr ⟨by decide +kernel, fun s inside i among => ?_⟩
    exact (streams s inside).2.2 i (Code.mem_instructions.mp among)
  have labelled : ∀ s ∈ startup :: c.streams, LabelledBy s.name s.lines := by
    refine List.forall_mem_cons.mpr ⟨?_, fun s inside => (streams s inside).2.1⟩
    exact List.forall_mem_singleton.mpr (.inr rfl)
  have named : ∀ s ∈ startup :: c.streams, s.name ∈ labelNames s.lines →
      ∃ f ∈ t.functions, s.name = f.name := by
    refine List.forall_mem_cons.mpr ⟨fun inside => ?_, fun s inside _ => (streams s inside).1⟩
    exact absurd inside (by decide)
  obtain ⟨blocks, rfl, laidOut⟩ := Assembler.blocks_of_streamBytes
    (Assembler.tabled_of_placeStreams tabled placed) encoded
  rw [same]
  exact ⟨blocks, memory, laidOut, Assembler.knows_of_placeStreams labelled named placed⟩

/--
Operands of variables are assembled to their own addresses: in a program that is compiled and loaded
and whose names are identifiers, every operand for a variable stands for the address of the variable
plus the offset, if no other variable and no function has the same name in other letters.
-/
theorem addressed_of_load {t : Table} {level : Int64} {c : Compiled} {m : Machine} {v : Variable}
    (defined : t.Defined) (member : v ∈ t.vars)
    (names : ∀ u ∈ t.vars, Code.AddressExpr.isName u.name.toList = true)
    (functionNames : ∀ f ∈ t.functions, Code.AddressExpr.isName f.name.toList = true)
    (spells : t.Spells v.name) (compiled : (compile t level).2 = .ok c)
    (loaded : load c t = .ok m) : ∃ blocks, m.Addressed t (startup :: c.streams) v.name blocks := by
  obtain ⟨laid, -⟩ := load_eq_ok loaded
  obtain ⟨blocks, memory, encoded, knows⟩ := exists_blocks compiled loaded
  refine ⟨blocks, memory, encoded, ?_⟩
  intro stream i block inside place high mode inMemory own written isMemory
  obtain ⟨here, encodes⟩ := encoded.encodes_of_mem inside
  obtain ⟨address, value, bytes⟩ := Assembler.evaluate_of_encodes encodes isMemory
  have unknown := knows.resolve_number (fun _ ⟨f, among, same⟩ => same ▸ functionNames f among)
    (isName_of_layout laid names) stream
  obtain ⟨base, found, sum⟩ := Lowering.evaluate_operand inMemory (own ▸ names v member) unknown
    written value
  rw [own] at found
  exact ⟨base, lookup_of_resolve defined laid spells (names v member) knows
    found, by rw [bytes, sum]⟩

theorem exists_load (t : Table) (level : Int64) (P : Compiled → Machine → Bool)
    (evaluated : ((compile t level).2.toOption.any fun c =>
      (load c t).toOption.any fun m => P c m) = true) :
    ∃ c m, (compile t level).2 = .ok c ∧ load c t = .ok m ∧ P c m = true := by
  cases compiled : (compile t level).2 with
  | error failure =>
    rw [compiled] at evaluated
    cases evaluated
  | ok c =>
    rw [compiled] at evaluated
    change (load c t).toOption.any (P c) = true at evaluated
    cases loaded : load c t with
    | error failure =>
      rw [loaded] at evaluated
      cases evaluated
    | ok m =>
      rw [loaded] at evaluated
      exact ⟨c, m, rfl, loaded, evaluated⟩

/-- A word, a table with the name of a register in its own, and a constant. -/
def filledVars : List Variable :=
  [{ name := "X_y", size := 1, length := 4 },
    { name := "_W", size := 1, isConst := true, value := 7 },
   { name := "_w", size := 2 }]

/-- Sets both bytes of the word and an element of the table. -/
def filled : Table where
  vars := filledVars
  functions := [{ name := "main", body := some ⟨{},
    [.expr {} (.binary .assign (.var "_w" .absent) (.int 300)),
     .expr {} (.binary .assign (.var "X_y" (.var "X" .absent)) (.var "_W" .absent))]⟩ }]

theorem filled_defined : filled.Defined :=
  .of_entries rfl

theorem filled_addressed : filled.Spells "_w" ∧ ∃ c m blocks, (compile filled 1).2 = .ok c ∧
    load c filled = .ok m ∧ m.Addressed filled (startup :: c.streams) "_w" blocks := by
  have spells : filled.Spells "_w" := ⟨by decide +kernel, by decide +kernel, by decide +kernel⟩
  obtain ⟨c, m, compiled, loaded, -⟩ := exists_load filled 1 (fun _ _ => true)
    (by decide +kernel)
  obtain ⟨blocks, addressed⟩ := addressed_of_load (v := filledVars[2]) filled_defined
    (by decide) (by decide +kernel) (by decide +kernel) spells compiled loaded
  exact ⟨spells, c, m, blocks, compiled, loaded, addressed⟩

/-- A function whose name is that of a variable in other letters. -/
def shadowed : Table where
  vars := [{ name := "Main", size := 1 }]
  functions := [{ name := "main", body := some ⟨{},
    [.expr {} (.binary .assign (.var "Main" .absent) (.int 5))]⟩ }]

def shadowedStore : Code.Instruction :=
  ⟨.known .sta, .absolute, "Main", 4, 0, 3, false⟩

/-- The function takes the operand of the variable: the program overwrites itself. -/
theorem not_addressed_of_load : shadowed.Defined ∧
    (∀ v ∈ shadowed.vars, Code.AddressExpr.isName v.name.toList = true) ∧
    (∀ f ∈ shadowed.functions, Code.AddressExpr.isName f.name.toList = true) ∧
    ∃ c m, (compile shadowed 0).2 = .ok c ∧ load c shadowed = .ok m ∧
      ∀ blocks, ¬m.Addressed shadowed (startup :: c.streams) "Main" blocks := by
  have defined : shadowed.Defined := by
    refine .addFunction (f := shadowed.functions[0]) (t := { vars := shadowed.vars }) ?_ rfl
    exact .addVariable (v := shadowed.vars[0]) .empty rfl
  refine ⟨defined, by decide +kernel, by decide +kernel, ?_⟩
  obtain ⟨c, m, compiled, loaded, known⟩ := exists_load shadowed 0
    (fun c m => m.addresses.lookup "Main" == some 0x200 &&
      (sites (startup :: c.streams)).contains ("main", shadowedStore) &&
      (Code.AddressExpr.evaluate (((Assembler.ofSymbols m.addresses).assemble codeStart
        (startup :: c.streams)).1.resolve "main") "Main".toList).toOption == some 0x1006)
    (by decide +kernel)
  refine ⟨c, m, compiled, loaded, fun blocks addressed => ?_⟩
  simp only [Bool.and_eq_true, beq_iff_eq, List.contains_iff_mem] at known
  obtain ⟨⟨own, site⟩, value⟩ := known
  obtain ⟨block, inside⟩ := addressed.encoded.exists_block site
  obtain ⟨here, encodes⟩ := addressed.encoded.encodes_of_mem inside
  obtain ⟨found, evaluated, bytes⟩ := Assembler.evaluate_of_encodes encodes rfl
  obtain ⟨base, address, same⟩ := addressed.operands _ _ _ inside (.cell "Main" true 0 false) false
    .absolute rfl rfl rfl rfl
  have text : Code.AddressExpr.ofOperand shadowedStore.operand.toList = "Main".toList := by
    decide +kernel
  rw [text] at evaluated
  rw [evaluated] at value
  cases value
  cases own.symm.trans address
  exact absurd (bytes.symm.trans same) (by decide)

end Machine

end Backend6502
