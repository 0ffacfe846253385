/-!
# Ranges of code points

Character classes are given as lists of closed intervals. A long list is written down by the gaps
between its intervals and their sizes.
-/

namespace Backend6502.Text

/-- The intervals from code point `n` on with these gaps before them and these sizes, by turns. -/
def rangesFrom (n : Nat) : List Nat → List (Nat × Nat)
  | gap :: size :: rest => (n + gap, n + gap + size - 1) :: rangesFrom (n + gap + size) rest
  | _ => []

def inRanges (ranges : List (Nat × Nat)) (c : Char) : Bool :=
  ranges.any fun range => range.1 ≤ c.toNat && c.toNat ≤ range.2

end Backend6502.Text
