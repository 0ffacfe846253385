import Backend6502.Code.Peephole
import Backend6502.Lowering.Stmt
import Backend6502.Symbols.Reachable

/-!
# The compiler

Code for all functions of a symbol table: each one is generated, then optimized, then its branches
are repaired. Higher levels optimize more; the second one leaves out what cannot be reached.
-/

namespace Backend6502

open Code (Stream Defect)
open Lowering (Failure)
open Symbols (Table Function)

/-- The streams generated so far and the calls across banks met so far. -/
structure Generator where
  symbols : Table
  /-- In the order of generation. -/
  streams : List Stream := []
  /-- By name. -/
  trampolines : List String := []

inductive GenerateError where
  | twice (name : String)
  | failure (f : Failure)

def GenerateError.message : GenerateError → String
  | .twice name => "function " ++ name ++ " generated twice"
  | .failure (.error e) => e.diagnostic.text
  | .failure (.defect d) => d.message

namespace Generator

/-- Generates a function. The calls across banks that it has met are kept even if it fails. -/
def generate (g : Generator) (f : Function) : Generator × Except GenerateError Stream :=
  if g.streams.any (·.name == f.name) then (g, .error (.twice f.name))
  else
    match Lowering.function f ⟨g.symbols, f⟩ { trampolines := g.trampolines } with
    | .ok _ context =>
      let stream : Stream := { name := f.name, lines := context.code }
      ({ g with streams := g.streams ++ [stream], trampolines := context.trampolines }, .ok stream)
    | .error failure context =>
      ({ g with trampolines := context.trampolines }, .error (.failure failure))

end Generator

structure Options where
  level : Int64 := 1
  cycles : Bool := false
  verbose : Bool := false
  deriving DecidableEq, Repr

structure Compiled where
  /-- In the order of declaration. -/
  streams : List Stream := []
  trampolines : List String := []

namespace Compiled

def stream? (c : Compiled) (name : String) : Option Stream :=
  c.streams.find? (·.name == name)

def removed (c : Compiled) : Nat :=
  c.streams.foldl (fun n s => n + s.removed) 0

def fixes (c : Compiled) : Nat :=
  c.streams.foldl (fun n s => n + s.fixes) 0

/-- The streams with an empty line between them, then the trampolines that are needed. -/
def write (cycles : Bool) (c : Compiled) : String :=
  "\n".intercalate (c.streams.map (Stream.write cycles))
    ++ (if c.trampolines.isEmpty then ""
      else "\n" ++ String.join (c.trampolines.map fun name =>
        "; trampoline " ++ Lowering.trampolineName name ++ "\n"))

end Compiled

inductive Report where
  | dropped (name : String)
  | compiled (stream : Stream)

def Report.text : Report → String
  | .dropped name => name ++ ": unreachable, dropped\n"
  | .compiled s =>
    s.name ++ ": " ++ toString s.instructions.length ++ " instructions, " ++ toString s.removed
      ++ " removed, " ++ toString s.fixes ++ " branches fixed\n"

inductive CompileFailure where
  | error (function : String) (e : Lowering.CompileError)
  | twice (function : String)
  | defect (d : Defect)

/-- The text of a failed compilation: the function comes first. -/
def CompileFailure.message : CompileFailure → String
  | .error function e => function ++ ": " ++ (GenerateError.failure (.error e)).message
  | .twice function => function ++ ": " ++ (GenerateError.twice function).message
  | .defect d => d.message

/-- Optimizes a stream, if asked for, and repairs its branches. -/
def finish (level : Int64) (s : Stream) : Except Defect Stream :=
  match (if 1 ≤ level then s.optimize else s).repair with
  | (s, none) => .ok s
  | (_, some defect) => .error defect

namespace Compiler

/-- The functions to be compiled: all of them, or those that can be reached. -/
def isKept (t : Table) (level : Int64) : Function → Bool :=
  if 2 ≤ level then
    let reachable := t.reachable
    fun f => reachable.contains f.name
  else fun _ => true

/-- Compiles functions one after another, with a report on each one that was dealt with. -/
def run (kept : Function → Bool) (level : Int64) :
    Generator → List Function → List Report × Except CompileFailure Compiled
  | g, [] => ([], .ok { trampolines := g.trampolines })
  | g, f :: rest =>
    if kept f then
      match g.generate f with
      | (_, .error (.twice name)) => ([], .error (.twice name))
      | (_, .error (.failure (.error e))) => ([], .error (.error f.name e))
      | (_, .error (.failure (.defect d))) => ([], .error (.defect d))
      | (g, .ok s) =>
        match finish level s with
        | .error d => ([], .error (.defect d))
        | .ok s =>
          let (reports, result) := run kept level g rest
          (.compiled s :: reports, result.map fun c => { c with streams := s :: c.streams })
    else
      let (reports, result) := run kept level g rest
      (.dropped f.name :: reports, result)

end Compiler

def compile (t : Table) (level : Int64) : List Report × Except CompileFailure Compiled :=
  Compiler.run (Compiler.isKept t level) level { symbols := t } t.functions

end Backend6502
