import PlanarLP.Decimal.Format
import PlanarLP.Scalar

/-! Double-precision floating point as a scalar. -/

namespace PlanarLP.Binary64

def signBit : UInt64 := 0x8000000000000000

/-- A key that sorts the values: what is no number first, then by value, and the negative
zero below the positive one. -/
def rank (x : Float) : Int :=
  let bits := x.toBits
  if x.isNaN then -(signBit.toNat : Int)
  else if bits < signBit then bits.toNat
  else -((bits - signBit).toNat : Int) - 1

def infinity : Float := Float.ofBits 0x7ff0000000000000

def notANumber : Float := Float.ofBits 0x7ff8000000000000

/-- The value that a text without a sign writes: a numeral, or in letters of either case a name
of the infinite value or of the value that is no number. -/
def unsigned? (cs : List Char) : Option Float :=
  let word := String.ofList (cs.map Char.toLower)
  if word = "inf" ∨ word = "infinity" then some infinity
  else if word = "nan" then some notANumber
  else (Decimal.ofNumeral? cs).map Decimal.value

/-- The value that a text writes, after a sign or none. -/
def ofText? : List Char → Option Float
  | '-' :: cs => (unsigned? cs).map (-·)
  | '+' :: cs => unsigned? cs
  | cs => unsigned? cs

end PlanarLP.Binary64

namespace PlanarLP

instance : Scalar Float where
  natCast := Float.ofNat
  zero := 0
  one := 1
  decLe := inferInstance
  decLt := inferInstance
  abs := Float.abs
  sqrt := Float.sqrt
  max a b := if b.isNaN || b ≤ a then a else b
  min a b := if b.isNaN || a ≤ b then a else b
  atan2 := Float.atan2
  isFinite := Float.isFinite
  infinity := some Binary64.infinity
  order a b := compare (Binary64.rank a) (Binary64.rank b)
  text := Decimal.Format.plain.write

end PlanarLP
