import Backend6502.Compiler
import Backend6502.Proofs.StructuredCode

/-!
# Functions of structured statements

A function whose body is structured is compiled to code that does what the body means: a run from
the first line comes to the return at the end, with the store of the body in the memory and in the
index registers and with the stack as it was.

The code keeps half-done sums in a scratch cell and on the stack. So the cells of the variables have
to lie apart from the scratch cell, and none of them may be the byte at the top of the stack.
-/

namespace Backend6502.Lowering

open Code (Line Instruction Surroundings Steps Point Stream)
open Cpu (State)
open Source (Store Stmt isCell)
open Symbols (Table Function)

/-- The cells of the byte variables lie apart from each other and from the scratch cell. -/
structure CellsApart (w : Surroundings) (table : Table) : Prop where
  each : ∀ m n, isCell table m = true → isCell table n = true →
    cellAddress w table m 0 = cellAddress w table n 0 → m = n
  scratch : ∀ n, isCell table n = true → cellAddress w table n 0 ≠ scratchAddress w

/-- No cell of a byte variable is the byte at the top of the stack. -/
def StackApart (w : Surroundings) (table : Table) (s : State) : Prop :=
  ∀ n, isCell table n = true → cellAddress w table n 0 ≠ s.stackTop

def storeOf (w : Surroundings) (table : Table) (s : State) : Store where
  cell name := s.read (cellAddress w table name 0)
  x := s.x
  y := s.y

/--
A run through some lines comes to the last one, which is a return, and ends with this store. The
stack pointer is where it was, and no byte has changed but those of the store, the scratch cell and
the top of the stack.
-/
structure Returns (w : Surroundings) (table : Table) (lines : List Line) (s : State) (σ : Store)
    (ret : Instruction) (t : State) : Prop where
  isReturn : ret.op = .known .rts
  last : lines.getLast? = some (.instruction ret)
  steps : Steps w lines ⟨lines, s⟩ ⟨[.instruction ret], t⟩
  cells : ∀ name, isCell table name = true → t.read (cellAddress w table name 0) = σ.cell name
  x : t.x = σ.x
  y : t.y = σ.y
  stack : t.sp = s.sp
  others : ∀ address, address ≠ scratchAddress w → address ≠ s.stackTop →
    (∀ name, isCell table name = true → address ≠ cellAddress w table name 0) →
      t.read address = s.read address

section Parts

variable {scope : Scope} {c d : Context} {u : Unit}

theorem emitReturn_eq_ok (plain : scope.function.interrupt = false)
    (ok : emitReturn scope c = .ok u d) :
    ∃ ret : Instruction, ret.op = .known .rts ∧ d.code = (c.steered ret).code := by
  obtain ⟨_, _, ⟨⟩, ok⟩ := bind_inv ok
  rw [plain] at ok
  cases ok
  exact ⟨_, rfl, rfl⟩

theorem endsInReturn_of_areStructured {table : Table} :
    ∀ {body : List Stmt}, Stmt.areStructured table body = true → endsInReturn body = false
  | [], _ => rfl
  | [s], all => by
      cases s with
      | ret => cases all
      | _ => rfl
  | _ :: s :: rest, all => by
      have others : Stmt.areStructured table (s :: rest) = true := by
        rw [Stmt.areStructured, Bool.and_eq_true] at all
        exact all.2
      have ends := endsInReturn_of_areStructured others
      rw [endsInReturn] at ends ⊢
      rwa [List.getLast?_cons_cons]

theorem function_eq_ok {f : Function} {block : Source.Block} (body : f.body = some block)
    (plain : scope.function.interrupt = false)
    (structured : block.toStmt.isStructured scope.symbols = true)
    (ok : function f scope c = .ok u d) :
    ∃ (e : Context) (ret : Instruction), ret.op = .known .rts ∧
      stmt block.toStmt scope (c.labelled f.name) = .ok () e ∧ d.code = (e.steered ret).code := by
  obtain ⟨_, _, label, ok⟩ := bind_inv ok
  cases putLabel_eq_ok label
  rw [body] at ok
  obtain ⟨_, e, runs, ok⟩ := bind_inv ok
  rw [Source.Block.toStmt, Stmt.isStructured, Bool.and_eq_true] at structured
  rw [endsInReturn_of_areStructured structured.2] at ok
  obtain ⟨ret, isReturn, code⟩ := emitReturn_eq_ok plain ok
  exact ⟨e, ret, isReturn, runs, code⟩

end Parts

section Whole

variable {S : Setting} {σ' : Store}

theorem Setting.follows_start (S : Setting) (binary : S.start.decimal = false) :
    Follows S (storeOf S.w S.table S.start) S.start where
  cells _ _ := rfl
  x := rfl
  y := rfl
  binary := binary
  stack := rfl
  others _ _ _ _ := rfl

/-- A run through the code of a function ends at the return, and has done what the body means. -/
theorem returns_function {f : Function} {block : Source.Block} {trampolines : List String}
    {d : Context} {fuel : Nat} (body : f.body = some block)
    (plain : S.scope.function.interrupt = false)
    (structured : block.toStmt.isStructured S.table = true)
    (ok : function f S.scope { trampolines } = .ok () d) (binary : S.start.decimal = false)
    (ran : block.toStmt.exec S.table fuel (storeOf S.w S.table S.start) = some (.past, σ')) :
    ∃ ret t, Returns S.w S.table d.code S.start σ' ret t := by
  obtain ⟨e, ret, isReturn, runs, code⟩ := function_eq_ok body plain structured ok
  have performs (L : Listing) (fresh : L.Fresh (Context.labelled { trampolines } f.name)) :
      Performs S L none (block.toStmt.exec S.table fuel) _ e :=
    performs_stmt structured ⟨⟨fresh, rfl, rfl⟩, rfl⟩ runs
  -- How the code is laid out does not depend on the listing, so that of no lines will do here.
  have lays : Lays [] (Context.labelled { trampolines } f.name) (e.steered ret) :=
    (performs _ (Listing.fresh_nil _)).lays.trans (.steered e ret)
  let L : Listing := ⟨(e.steered ret).code, 0⟩
  have ends : L.Holds (e.steered ret) := List.prefix_refl _
  have inside : L.Holds e := (Lays.steered e ret).holds ends
  have goes := (Goes.pastLabel (lays.holds ends) _).trans
    ((performs L (lays.fresh (Nat.zero_le _))).goes inside ran)
  obtain ⟨t, steps, sound⟩ := goes S.start ⟨S.follows_start binary, trivial⟩
  have follows := sound.follows
  have rest : L.ahead e = [.instruction ret] := List.drop_left
  rw [rest] at steps
  refine ⟨ret, t, isReturn, ?_, ?_, follows.cells, follows.x, follows.y, follows.stack,
    follows.others⟩
  · rw [code]
    exact List.getLast?_concat
  · rw [code]
    exact steps

end Whole

end Backend6502.Lowering

namespace Backend6502.Generator

open Code (Line Point Steps Stream Surroundings)
open Cpu (Memory State)
open Lowering (CellsApart StackApart Returns cellAddress scratchAddress storeOf)
open Source (Block Expr Store isCell)
open Symbols (Function Table)

/-- Code for a structured function does what the body of the function means. -/
theorem returns_of_generate {g g' : Generator} {f : Function} {block : Block} {stream : Stream}
    (defined : g.symbols.Defined) (generated : g.generate f = (g', .ok stream))
    (body : f.body = some block) (plain : f.interrupt = false)
    (structured : block.toStmt.isStructured g.symbols = true) {w : Surroundings} {s : State}
    (apart : CellsApart w g.symbols) (stack : StackApart w g.symbols s)
    (binary : s.decimal = false) {fuel : Nat} {σ' : Store}
    (ran : block.toStmt.exec g.symbols fuel (storeOf w g.symbols s) = some (.past, σ')) :
    ∃ ret t, Returns w g.symbols stream.lines s σ' ret t := by
  unfold generate at generated
  split at generated
  · cases generated
  split at generated
  · next _ d ok =>
    cases generated
    refine Lowering.returns_function (S := ⟨w, ⟨g.symbols, f⟩, s, ?_, apart.each, apart.scratch,
      stack⟩) body plain structured ok binary ran
    intro name isRegister
    exact defined.getVariable?_reserved (by
      rw [Symbols.isReserved]
      exact Bool.or_eq_true_iff.mpr (.inl isRegister))
  · cases generated

def differenceSymbols : Table where
  vars := ["a", "b", "r", "v"].map fun name => { name, size := 1 }

/-- Does `r = (a + b) - (a + v)` two times, counted by `X`. -/
def differenceBody : Block where
  loc := {}
  body :=
    let var (name : String) : Expr := .var name .absent
    [.forLoop {} (.binary .assign (var "X") (.int 0)) (.binary .lt (var "X") (.int 2))
      (.binary .assign (var "X") (.binary .add (var "X") (.int 1)))
      (.expr {} (.binary .assign (var "r")
        (.binary .sub (.binary .add (var "a") (var "b")) (.binary .add (var "a") (var "v")))))]

def difference : Function where
  name := "main"
  body := some differenceBody

/-- The variables in memory, with `v` at an address of choice. -/
def differencePlaces (v : UInt16) : Surroundings where
  address
    | "a" => 0x200
    | "b" => 0x201
    | "r" => 0x202
    | "v" => v
    | _ => 0x80
  verbatim _ _ := none
  call _ _ := none

def differenceStart (v : UInt16) : State where
  sp := 0xFD
  memory := ((({} : Memory).write 0x200 1).write 0x201 2).write v 9

theorem differenceSymbols_defined : differenceSymbols.Defined :=
  .of_entries rfl

theorem mem_of_isCell {name : String} (cell : isCell differenceSymbols name = true) :
    name ∈ ["a", "b", "r", "v"] := by
  unfold isCell at cell
  cases found : differenceSymbols.getVariable? name with
  | none =>
    rw [found] at cell
    cases cell
  | some v =>
    obtain ⟨inside, rfl⟩ := Table.of_getVariable? found
    exact List.mem_map_of_mem (f := (·.name)) inside

theorem differencePlaces_apart {v : UInt16} (free : v = 0x203 ∨ v = 0x1FD) :
    CellsApart (differencePlaces v) differenceSymbols := by
  have each : ∀ m ∈ ["a", "b", "r", "v"], ∀ n ∈ ["a", "b", "r", "v"],
      cellAddress (differencePlaces v) differenceSymbols m 0 =
        cellAddress (differencePlaces v) differenceSymbols n 0 → m = n := by
    rcases free with rfl | rfl <;> decide +kernel
  have scratch : ∀ n ∈ ["a", "b", "r", "v"],
      cellAddress (differencePlaces v) differenceSymbols n 0 ≠
        scratchAddress (differencePlaces v) := by
    rcases free with rfl | rfl <;> decide +kernel
  exact ⟨fun m n mCell nCell => each m (mem_of_isCell mCell) n (mem_of_isCell nCell),
    fun n cell => scratch n (mem_of_isCell cell)⟩

/-- The program is compiled; with `v` at the top of the stack, 3 - 4 is left in `r`. -/
theorem difference_generates : ∃ g' stream,
    ({ symbols := differenceSymbols } : Generator).generate difference = (g', .ok stream) ∧
      let w := differencePlaces 0x1FD
      let ended := Point.after w stream.lines 100 ⟨stream.lines, differenceStart 0x1FD⟩
      ended.step? w stream.lines = none ∧ ended.cpu.read 0x202 = 0xFF := by
  let w := differencePlaces 0x1FD
  let ended (stream : Stream) : Point :=
    Point.after w stream.lines 100 ⟨stream.lines, differenceStart 0x1FD⟩
  have evaluated :
      (({ symbols := differenceSymbols } : Generator).generate difference).2.toOption.any
      (fun stream => ((ended stream).step? w stream.lines).isNone &&
        (ended stream).cpu.read 0x202 == 0xFF) = true := by
    decide +kernel
  rcases made : ({ symbols := differenceSymbols } : Generator).generate difference with
    ⟨g', _ | stream⟩
  · rw [made] at evaluated
    cases evaluated
  · rw [made] at evaluated
    obtain ⟨stops, value⟩ := Bool.and_eq_true_iff.mp evaluated
    exact ⟨g', stream, rfl, Option.isNone_iff_eq_none.mp stops, eq_of_beq value⟩

/-- By the meaning of the program, 3 - 10 is left in `r`. -/
theorem difference_ran {v : UInt16} (free : v = 0x203 ∨ v = 0x1FD) : ∃ σ',
    differenceBody.toStmt.exec differenceSymbols 2
      (storeOf (differencePlaces v) differenceSymbols (differenceStart v)) = some (.past, σ') ∧
        σ'.cell "r" = 0xF9 ∧ σ'.x = 2 := by
  refine ⟨_, rfl, ?_, rfl⟩
  rcases free with rfl | rfl <;> decide +kernel

theorem difference_returns :
    CellsApart (differencePlaces 0x203) differenceSymbols ∧
      StackApart (differencePlaces 0x203) differenceSymbols (differenceStart 0x203) ∧
      ∃ g' stream σ' ret t,
        ({ symbols := differenceSymbols } : Generator).generate difference = (g', .ok stream) ∧
          Returns (differencePlaces 0x203) differenceSymbols stream.lines (differenceStart 0x203)
            σ' ret t ∧ σ'.cell "r" = 0xF9 ∧ σ'.x = 2 := by
  have apart := differencePlaces_apart (.inl rfl)
  have stack : StackApart (differencePlaces 0x203) differenceSymbols (differenceStart 0x203) := by
    intro n cell
    have each : ∀ n ∈ ["a", "b", "r", "v"],
        cellAddress (differencePlaces 0x203) differenceSymbols n 0 ≠
          (differenceStart 0x203).stackTop := by
      decide +kernel
    exact each n (mem_of_isCell cell)
  obtain ⟨g', stream, generated, -⟩ := difference_generates
  obtain ⟨σ', ran, r, x⟩ := difference_ran (.inl rfl)
  obtain ⟨ret, t, returns⟩ := returns_of_generate differenceSymbols_defined generated rfl rfl
    (by decide +kernel) apart stack rfl ran
  exact ⟨apart, stack, g', stream, σ', ret, t, generated, returns, r, x⟩

/-- A variable at the top of the stack does not keep its value, and the code goes wrong. -/
theorem not_returns_without_stackApart :
    ¬ ∀ (g g' : Generator) (f : Function) (block : Block) (stream : Stream) (w : Surroundings)
        (s : State) (fuel : Nat) (σ' : Store),
      g.symbols.Defined → g.generate f = (g', .ok stream) → f.body = some block →
      f.interrupt = false → block.toStmt.isStructured g.symbols = true → CellsApart w g.symbols →
      s.decimal = false →
      block.toStmt.exec g.symbols fuel (storeOf w g.symbols s) = some (.past, σ') →
        ∃ ret t, Returns w g.symbols stream.lines s σ' ret t := by
  intro always
  obtain ⟨g', stream, generated, ends, value⟩ := difference_generates
  obtain ⟨σ', ran, r, -⟩ := difference_ran (.inr rfl)
  obtain ⟨ret, t, returns⟩ := always _ _ _ _ _ _ _ _ _ differenceSymbols_defined generated rfl rfl
    (by decide +kernel) (differencePlaces_apart (.inr rfl)) rfl ran
  have stops : Point.step? (differencePlaces 0x1FD) stream.lines ⟨[.instruction ret], t⟩ =
      none := by
    have flow : ret.flow (differencePlaces 0x1FD) t = .stop :=
      Code.Instruction.flow_known returns.isReturn
    simp only [Point.step?, Line.flow, flow]
  have same := returns.steps.unique stops (.after 100 _) ends
  rw [← same] at value
  have kept := returns.cells "r" (by decide +kernel)
  exact absurd ((kept.trans r).symm.trans value) (by decide)

end Backend6502.Generator
