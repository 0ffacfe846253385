import Backend6502.Source.Calls
import Backend6502.Symbols.Table

/-!
# Reachable functions

The functions that `main` and the interrupt handlers may come to call.
-/

namespace Backend6502.Symbols

def newNames (known : List String) : List String → List String
  | [] => []
  | name :: rest =>
    if known.contains name then newNames known rest else name :: newNames (name :: known) rest

namespace Table

/-- The functions of the table that a function calls. -/
def callees (t : Table) (name : String) : List String :=
  match (t.getFunction? name).bind (·.body) with
  | none => []
  | some body => body.calls.filter fun callee => (t.getFunction? callee).isSome

/-- Follows the calls of the functions in a queue, at most `bound` of them. -/
def follow (t : Table) : (bound : Nat) → (marked queue : List String) → List String
  | 0, marked, _ => marked
  | _, marked, [] => marked
  | bound + 1, marked, name :: queue =>
    let found := newNames marked (t.callees name)
    t.follow bound (marked ++ found) (queue ++ found)

def roots (t : Table) : List String :=
  (t.functions.filter fun f => f.name == "main" || f.interrupt).map (·.name)

/-- The functions that can be reached. Each of them is followed once. -/
def reachable (t : Table) : List String :=
  t.follow t.functions.length t.roots t.roots

end Table

end Backend6502.Symbols
