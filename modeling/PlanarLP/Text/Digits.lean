/-! Decimal digits at the start of a text. -/

namespace PlanarLP.Text

/-- How many digits a text starts with. -/
def digitCount (cs : List Char) : Nat := (cs.takeWhile Char.isDigit).length

/-- The number that decimal digits write. -/
def ofDigits (cs : List Char) : Nat :=
  cs.foldl (fun n c => 10 * n + (c.toNat - '0'.toNat)) 0

end PlanarLP.Text
