import Backend6502.Text.Upper

/-!
# Names and addresses

Names are looked up without regard to case. A name given again stands for its newest address.
-/

namespace Backend6502.Code

/-- Addresses by name, newest first, with the names in upper case. -/
structure AddressBook where
  entries : List (String × UInt16) := []
  deriving DecidableEq, Repr

namespace AddressBook

def find? (book : AddressBook) (name : String) : Option UInt16 :=
  book.entries.lookup (Text.upper name)

def insert (book : AddressBook) (name : String) (address : UInt16) : AddressBook :=
  ⟨(Text.upper name, address) :: book.entries⟩

/-- The book of a list of names, the last of which count. -/
def ofList (pairs : List (String × UInt16)) : AddressBook :=
  pairs.foldl (fun book pair => book.insert pair.1 pair.2) {}

theorem find?_insert_self (book : AddressBook) (name : String) (address : UInt16) :
    (book.insert name address).find? name = some address := by
  simp [find?, insert]

theorem find?_insert_of_ne (book : AddressBook) (name other : String) (address : UInt16)
    (h : Text.upper other ≠ Text.upper name) :
    (book.insert name address).find? other = book.find? other := by
  have differs : (Text.upper other == Text.upper name) = false := by
    rw [beq_eq_false_iff_ne]
    exact h
  rw [find?, insert, List.lookup_cons, differs]
  rfl

end AddressBook

end Backend6502.Code
