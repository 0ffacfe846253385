/-!
# JSON values

Values keep what their text says: the order of the members of an object, members of the same name,
and numbers as they are written.
-/

namespace Backend6502.Json

inductive Value where
  | null
  | bool (b : Bool)
  | number (text : String)
  | string (text : String)
  | array (items : List Value)
  | object (members : List (String × Value))
  deriving Repr

namespace Value

def lastOf? (name : String) : List (String × Value) → Option Value
  | [] => none
  | (key, value) :: rest =>
    match lastOf? name rest with
    | some later => some later
    | none => if key == name then some value else none

/-- The member of an object; of several with one name the last one counts. -/
def member? (name : String) : Value → Option Value
  | .object members => lastOf? name members
  | _ => none

mutual

def depth : Value → Nat
  | .array items => itemsDepth items + 1
  | .object members => membersDepth members + 1
  | _ => 0

def itemsDepth : List Value → Nat
  | [] => 0
  | item :: rest => max item.depth (itemsDepth rest)

def membersDepth : List (String × Value) → Nat
  | [] => 0
  | (_, value) :: rest => max value.depth (membersDepth rest)

end

end Value

end Backend6502.Json
