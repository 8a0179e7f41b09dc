import PlanarLP.Decimal.Format
import PlanarLP.Json.Value

/-! JSON numbers as floating-point values. A numeral is read into as many leading digits as
fit in 64 bits and a power of ten, and the power is applied by one or two rounded operations,
so that long numerals may miss the nearest value in the last place. -/

namespace PlanarLP.Json

/-- Numbers are written with a point or an exponent, the exponent outside of 1e-5 to 1e16; of two
equally near decimals the even one. -/
def numberFormat : Decimal.Format := ⟨.even, some (-5, 15), true, "null", "null", "null"⟩

def Value.float (x : Float) : Value := .number (numberFormat.write x)

/-- Append digits to `n` while the result fits in 64 bits; the digits that are left follow. -/
def gatherDigits (n : Nat) : List Char → Nat × List Char
  | [] => (n, [])
  | c :: cs =>
    let more := 10 * n + (c.toNat - '0'.toNat)
    if more < UInt64.size then gatherDigits more cs else (n, c :: cs)

def powerOfTen (n : Nat) : Float := OfScientific.ofScientific 1 false n

/-- `x * 10 ^ exponent`, for `x` below 2 ^ 64; none when it is too large. Dividing by 1e308
twice takes any such number to zero. -/
def scale? (x : Float) (exponent : Int) : Option Float :=
  if 308 < exponent then if x == 0 then some x else none
  else if 0 ≤ exponent then
    let y := x * powerOfTen exponent.toNat
    if y.isFinite then some y else none
  else if -308 ≤ exponent then some (x / powerOfTen exponent.natAbs)
  else if -616 ≤ exponent then some (x / powerOfTen 308 / powerOfTen (exponent.natAbs - 308))
  else some 0

/-- The exponent that the end of a numeral writes. -/
def exponentOf : List Char → Int
  | [] => 0
  | _ :: '-' :: ds => -(Text.ofDigits ds : Int)
  | _ :: '+' :: ds => Text.ofDigits ds
  | _ :: ds => Text.ofDigits ds

/-- The value of a numeral that follows the grammar; none when it is too large. -/
def floatOf? (numeral : String) : Option Float := do
  let cs := numeral.toList
  let negative := cs.head? == some '-'
  let cs := if negative then cs.tail else cs
  let rest := cs.dropWhile Char.isDigit
  let fraction := match rest with
    | '.' :: ds => ds.takeWhile Char.isDigit
    | _ => []
  let exponent := exponentOf (rest.dropWhile fun c => c == '.' || c.isDigit)
  let (n, dropped) := gatherDigits 0 (cs.takeWhile Char.isDigit)
  let (n, unused) := gatherDigits n fraction
  let x ← scale? (Float.ofNat n)
    (exponent + dropped.length - (fraction.length - unused.length : Nat))
  return if negative then -x else x

end PlanarLP.Json
