/-!
# Code point intervals — how a character class is tabulated

A class of characters is a list of closed intervals of code points.  Membership is a scan of
that list; the classes built on it test the ASCII range first, so the scan runs for the rest
of Unicode only.
-/

namespace SchemaSql.Unicode

/-- A closed interval of code points: its first and its last member. -/
abbrev Interval := Nat × Nat

/-- Whether the code point of `c` lies in one of the intervals. -/
def inIntervals (intervals : List Interval) (c : Char) : Bool :=
  intervals.any fun (first, last) => first ≤ c.toNat && c.toNat ≤ last

end SchemaSql.Unicode
