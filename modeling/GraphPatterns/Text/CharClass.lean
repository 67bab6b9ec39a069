/-
A class of characters, given by its boundaries: the code points, in increasing order, at which
membership changes. A character belongs to the class when an odd number of boundaries lie at or
below it.
-/

namespace GraphPatterns.Text

/-- A set of characters as the increasing code points at which membership changes. -/
structure CharClass where
  boundaries : Array Nat

namespace CharClass

/-- How many boundaries lie at or below a code point. -/
def rank (k : CharClass) (code : Nat) : Nat :=
  k.boundaries.foldl (fun n b => if b ≤ code then n + 1 else n) 0

/-- A character is in the class when its rank is odd. -/
def contains (k : CharClass) (c : Char) : Bool := k.rank c.toNat % 2 == 1

end CharClass

end GraphPatterns.Text
