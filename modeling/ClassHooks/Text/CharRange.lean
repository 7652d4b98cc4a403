/-!
Sets of characters that are given by ranges of their numbers.
-/
namespace ClassHooks.Text

/-- The numbers of the first and the last character of each range, in order. -/
abbrev CharRanges := List (Nat × Nat)

def CharRanges.has : CharRanges → Char → Bool
  | [], _ => false
  | (first, last) :: rest, c =>
    first ≤ c.toNat && (c.toNat ≤ last || CharRanges.has rest c)

end ClassHooks.Text
