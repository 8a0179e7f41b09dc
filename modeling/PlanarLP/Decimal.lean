import PlanarLP.Text.Digits

/-! Decimal fractions: a natural number of digits times a power of ten, and the unsigned
numerals that denote them. -/

namespace PlanarLP

/-- The number `digits * 10 ^ exponent`. -/
structure Decimal where
  digits : Nat
  exponent : Int
deriving DecidableEq, Repr

namespace Decimal

/-- The nearest number of a type that reads decimal literals. -/
def value {α : Type} [OfScientific α] (d : Decimal) : α :=
  OfScientific.ofScientific d.digits (d.exponent < 0) d.exponent.natAbs

/-- An exponent part: `e` or `E`, perhaps a sign, and digits to the end. -/
def exponentPart? : List Char → Option Int
  | [] => some 0
  | e :: cs =>
    if e != 'e' && e != 'E' then none
    else
      let ds := match cs with
        | '+' :: ds => ds
        | '-' :: ds => ds
        | ds => ds
      if ds.isEmpty || !ds.all Char.isDigit then none
      else if cs.head? == some '-' then some (-Int.ofNat (Text.ofDigits ds))
      else some (Int.ofNat (Text.ofDigits ds))

/-- The decimal that an unsigned numeral writes: digits on at least one side of an optional
point, and an optional exponent. -/
def ofNumeral? (cs : List Char) : Option Decimal :=
  let whole := cs.takeWhile Char.isDigit
  let rest := cs.dropWhile Char.isDigit
  let (fraction, rest) := match rest with
    | '.' :: rest => (rest.takeWhile Char.isDigit, rest.dropWhile Char.isDigit)
    | rest => ([], rest)
  if whole.isEmpty && fraction.isEmpty then none
  else (exponentPart? rest).map fun e => ⟨Text.ofDigits (whole ++ fraction), e - fraction.length⟩

end Decimal

end PlanarLP
