import Backend6502.Code.Repair

/-!
# Removal of redundant instructions

A scan follows the registers whose content is known and stops at the first instruction, or pair of
instructions, that can go. Scans are repeated until none finds anything. Every reduction removes an
instruction, so there are at most as many as the stream has instructions.
-/

namespace Backend6502.Code

open Cpu (Mnemonic)

structure Known where
  a : Option UInt8 := none
  x : Option UInt8 := none
  y : Option UInt8 := none
  deriving DecidableEq, Repr

namespace Known

def step (k : Known) (i : Instruction) : Known :=
  match i.mnemonic? with
  | none => {}
  | some m =>
    match m with
    | .lda => { k with a := i.immediate? }
    | .ldx => { k with x := i.immediate? }
    | .ldy => { k with y := i.immediate? }
    | .tax => { k with x := k.a }
    | .tay => { k with y := k.a }
    | .txa => { k with a := k.x }
    | .tya => { k with a := k.y }
    | .inx => { k with x := k.x.map (· + 1) }
    | .dex => { k with x := k.x.map (· - 1) }
    | .iny => { k with y := k.y.map (· + 1) }
    | .dey => { k with y := k.y.map (· - 1) }
    | .adc | .sbc | .and | .ora | .eor | .pla => { k with a := none }
    | .asl | .lsr | .rol | .ror => if i.mode = .accumulator then { k with a := none } else k
    | .tsx => { k with x := none }
    | .sta | .stx | .sty | .cmp | .cpx | .cpy | .bit | .inc | .dec | .pha | .php | .plp | .clc
    | .sec | .nop | .txs | .bcc | .bcs | .beq | .bmi | .bne | .bpl | .bvc | .bvs => k
    | .jsr | .jmp | .rts | .rti | .brk | .cld | .cli | .clv | .sed | .sei => {}

def compared (k : Known) : Mnemonic → Option UInt8
  | .cmp => k.a
  | .cpx => k.x
  | .cpy => k.y
  | _ => none

def loaded (k : Known) : Mnemonic → Option UInt8
  | .lda => k.a
  | .ldx => k.x
  | .ldy => k.y
  | _ => none

end Known

/-- What an instruction does with the sign and zero flags that stand before it. -/
inductive FlagUse where
  | reads
  /-- They are gone without being read. -/
  | drops
  /-- They stand after it as before. -/
  | keeps
  deriving DecidableEq, Repr

/--
The use that a mnemonic makes of the sign and zero flags. Generated code relies on no flag across a
call or a return.
-/
def FlagUse.ofMnemonic : Mnemonic → FlagUse
  | .lda | .ldx | .ldy | .tax | .tay | .txa | .tya | .tsx | .inx | .iny | .dex | .dey | .inc | .dec
  | .adc | .sbc | .and | .ora | .eor | .asl | .lsr | .rol | .ror | .cmp | .cpx | .cpy | .bit | .pla
  | .plp | .jsr | .rts | .rti => .drops
  | .sta | .stx | .sty | .pha | .clc | .sec | .nop | .txs => .keeps
  | .beq | .bne | .bmi | .bpl | .bcc | .bcs | .bvc | .bvs | .php | .jmp | .brk | .cld | .cli | .clv
  | .sed | .sei => .reads

def Instruction.flagUse (i : Instruction) : FlagUse :=
  match i.mnemonic? with
  | some m => .ofMnemonic m
  | none => .reads

/-- Can the lines still read the sign and zero flags that stand before them? -/
def flagsLive : List Line → Bool
  | [] => false
  | .label _ :: _ | .verbatim _ :: _ => true
  | .comment _ :: rest | .removed :: rest => flagsLive rest
  | .instruction i :: rest =>
    match i.flagUse with
    | .reads => true
    | .drops => false
    | .keeps => flagsLive rest

def Instruction.readsCompare (i : Instruction) : Bool :=
  match i.mnemonic? with
  | some .adc | some .sbc | some .rol | some .ror | some .php => true
  | some m => m.isBranch
  | none => false

structure PairReduction where
  dropFirst : Bool
  /-- What stands in place of the second one. -/
  second : Line

namespace PairReduction

/-- A pull and a push right after it go if nobody reads the flags of the pull. -/
def ofPull? (first second : Instruction) (rest : List Line) : Option PairReduction :=
  if first.isProtected || second.isProtected || flagsLive rest then none
  else some ⟨true, .removed⟩

/-- A load of what was just stored goes if nobody reads its flags. -/
def ofReload? (first second : Instruction) (rest : List Line) : Option PairReduction :=
  if second.isProtected || first.mode != second.mode || first.operand != second.operand
    || flagsLive rest then none
  else some ⟨false, .removed⟩

/-- A compare of known values goes, and the branch after it is always taken or never. -/
def ofCompare? (k : Known) (compare : Mnemonic) (takenIfEqual : Bool) (first second : Instruction)
    (rest : List Line) : Option PairReduction :=
  if first.isProtected || second.isProtected then none
  else match first.immediate?, k.compared compare with
    | some value, some held =>
      if ((nearestInstruction? rest).map (·.1.readsCompare)).getD false then none
      else if takenIfEqual == (held == value) then
        some ⟨true, .instruction (.jump second.operand)⟩
      else some ⟨true, .removed⟩
    | _, _ => none

def find? (k : Known) (first second : Instruction) (rest : List Line) : Option PairReduction :=
  match first.mnemonic?, second.mnemonic? with
  | some .pla, some .pha => ofPull? first second rest
  | some .sta, some .lda => ofReload? first second rest
  | some .cmp, some .beq => ofCompare? k .cmp true first second rest
  | some .cpx, some .beq => ofCompare? k .cpx true first second rest
  | some .cpy, some .beq => ofCompare? k .cpy true first second rest
  | some .cmp, some .bne => ofCompare? k .cmp false first second rest
  | some .cpx, some .bne => ofCompare? k .cpx false first second rest
  | some .cpy, some .bne => ofCompare? k .cpy false first second rest
  | _, _ => none

def count (reduction : PairReduction) : Nat :=
  (if reduction.dropFirst then 1 else 0) + (if reduction.second = .removed then 1 else 0)

end PairReduction

/-- Does the instruction load what its register is known to hold, with nobody reading its flags? -/
def redundantLoad (k : Known) (i : Instruction) (rest : List Line) : Bool :=
  match i.mnemonic? with
  | none => false
  | some m =>
    match i.immediate?, k.loaded m with
    | some value, some held => !i.isProtected && held == value && !flagsLive rest
    | _, _ => false

def removeNearest : List Line → List Line
  | [] => []
  | line :: rest => if line.isSilent then line :: removeNearest rest else .removed :: rest

structure Reduced where
  lines : List Line
  count : Nat

/-- Applies the rules to an instruction after the lines above it (nearest first). -/
def reduceAt? (k : Known) (before : List Line) (i : Instruction) (rest : List Line) :
    Option Reduced :=
  let pair := (nearestInstruction? before).bind fun previous =>
    PairReduction.find? k previous.1 i rest
  match pair with
  | some reduction =>
    let above := if reduction.dropFirst then removeNearest before else before
    some ⟨above.reverse ++ reduction.second :: rest, reduction.count⟩
  | none =>
    if redundantLoad k i rest then some ⟨before.reverse ++ .removed :: rest, 1⟩ else none

/-- Looks for the first reduction; labels and assembler text make everything unknown. -/
def scan : (k : Known) → (before after : List Line) → Option Reduced
  | _, _, [] => none
  | k, before, line :: rest =>
    match line with
    | .label _ | .verbatim _ => scan {} (line :: before) rest
    | .comment _ | .removed => scan k (line :: before) rest
    | .instruction i =>
      match reduceAt? k before i rest with
      | some reduced => some reduced
      | none => scan (k.step i) (line :: before) rest

namespace Stream

def optimizeUpTo : (bound : Nat) → Stream → Stream
  | 0, s => s
  | bound + 1, s =>
    match scan {} [] s.lines with
    | none => s
    | some reduced =>
      optimizeUpTo bound
        { s with lines := reduced.lines, removed := s.removed + reduced.count }

/-- Removes redundant instructions until no rule applies. -/
def optimize (s : Stream) : Stream :=
  s.optimizeUpTo s.instructions.length

end Stream

end Backend6502.Code
