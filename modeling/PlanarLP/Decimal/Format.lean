import PlanarLP.Decimal.Shortest

/-! Writing floating-point numbers in decimal. Every format here writes the shortest digits;
a `Format` says when an exponent is used, whether a point is always shown, and how the
values that are no finite number are spelled. -/

namespace PlanarLP.Decimal

structure Format where
  tie : Tie
  /-- The powers of ten of a first digit that are written without an exponent; all of them
  where there is no range. -/
  positional : Option (Int × Int)
  /-- Whether integral values end in `.0`. -/
  point : Bool
  infinite : String
  negativeInfinite : String
  notANumber : String

/-- Plain notation, never with an exponent; of two equally near decimals the larger. -/
def Format.plain : Format := ⟨.up, none, false, "inf", "-inf", "NaN"⟩

/-- Digits with the decimal point after the first `places` of them; `places` may lie outside
the digits, which are then padded with zeros. -/
def positionalText (point : Bool) (ds : List Char) (places : Int) : List Char :=
  let whole := ds.take places.toNat ++ List.replicate (places.toNat - ds.length) '0'
  let fraction := List.replicate (-places).toNat '0' ++ ds.drop places.toNat
  (if whole.isEmpty then ['0'] else whole) ++
    if !fraction.isEmpty then '.' :: fraction else if point then ['.', '0'] else []

/-- One digit, the other digits after a point, and the signed exponent of the first. -/
def exponentText (ds : List Char) (exponent : Int) : List Char :=
  ds.take 1 ++ (if ds.length ≤ 1 then [] else '.' :: ds.drop 1) ++
    'e' :: (if exponent < 0 then '-' else '+') :: Nat.toDigits 10 exponent.natAbs

namespace Format

/-- The text of a nonzero decimal. -/
def ofDecimal (f : Format) (d : Decimal) : List Char :=
  let ds := Nat.toDigits 10 d.digits
  let places := ds.length + d.exponent
  match f.positional with
  | some (low, high) =>
    if low ≤ places - 1 ∧ places - 1 ≤ high then positionalText f.point ds places
    else exponentText ds (places - 1)
  | none => positionalText f.point ds places

/-- The text of a number given by the fields of the double-precision format. -/
def ofFields (f : Format) (negative : Bool) (biased fraction : Nat) : String :=
  if biased == 2047 then
    if fraction != 0 then f.notANumber
    else if negative then f.negativeInfinite
    else f.infinite
  else
    let magnitude :=
      if biased == 0 then
        if fraction == 0 then positionalText f.point ['0'] 1
        else f.ofDecimal (shortest f.tie fraction (-1074) false)
      else
        f.ofDecimal (shortest f.tie (0x10000000000000 + fraction) (biased - 1075)
          (fraction == 0 && 1 < biased))
    String.ofList (if negative then '-' :: magnitude else magnitude)

def write (f : Format) (x : Float) : String :=
  let bits := x.toBits
  f.ofFields (bits >>> 63 == 1) (bits >>> 52 &&& 0x7ff).toNat (bits &&& 0xfffffffffffff).toNat

end Format

end PlanarLP.Decimal
