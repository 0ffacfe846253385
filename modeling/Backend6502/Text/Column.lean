/-!
# Columns

Text filled up with spaces on the right. Widths count characters.
-/

namespace Backend6502.Text

def padRight (width : Nat) (text : String) : String :=
  text ++ String.ofList (List.replicate (width - text.length) ' ')

end Backend6502.Text
