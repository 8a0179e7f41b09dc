import PlanarLP.Decimal

/-! The shortest decimal that stands for a binary floating-point number. A number
`m * 2 ^ q` is written for every real that rounds to it, an interval about the number; the
shortest decimal is the point of that interval on the coarsest grid of powers of ten that
meets it, and of two such points the nearer. All of it is exact arithmetic on `Nat`. -/

namespace PlanarLP.Decimal

/-- Which of two equally near decimals is taken. -/
inductive Tie where
  | up
  | even
deriving DecidableEq, Repr

/-- A positive number over a common denominator, with the ends of the interval that rounds
to it. -/
structure Rounding where
  lower : Nat
  value : Nat
  upper : Nat
  denominator : Nat
  /-- Whether the ends themselves round to the number. -/
  closed : Bool
deriving DecidableEq, Repr

namespace Rounding

/-- The interval about `m * 2 ^ q`. `narrow` says that the next number below is only half as
far away as the next one above. -/
def ofBinary (m : Nat) (q : Int) (narrow : Bool) : Rounding :=
  let up := Nat.pow 2 (q - 2).toNat
  { lower := (4 * m - if narrow then 1 else 2) * up
    value := 4 * m * up
    upper := (4 * m + 2) * up
    denominator := Nat.pow 2 (2 - q).toNat
    closed := m % 2 == 0 }

/-- Whether `d * 10 ^ t` rounds to the number. -/
def admits (r : Rounding) (t : Int) (d : Nat) : Bool :=
  let point := d * r.denominator * Nat.pow 10 t.toNat
  let unit := Nat.pow 10 (-t).toNat
  if r.closed then r.lower * unit ≤ point && point ≤ r.upper * unit
  else r.lower * unit < point && point < r.upper * unit

/-- The admitted multiple of `10 ^ t` nearest to the number. -/
def onGrid? (r : Rounding) (tie : Tie) (t : Int) : Option Nat :=
  let value := r.value * Nat.pow 10 (-t).toNat
  let unit := r.denominator * Nat.pow 10 t.toNat
  let d := value / unit
  let twice := 2 * (value % unit)
  match r.admits t d, r.admits t (d + 1) with
  | false, false => none
  | true, false => some d
  | false, true => some (d + 1)
  | true, true =>
    if twice < unit || (twice == unit && tie == .even && d % 2 == 0) then some d
    else some (d + 1)

end Rounding

/-- An exponent of ten below which every number under `2 ^ (bits + 1)` has its first digit;
`bits` may be negative. -/
def leadingExponent (bits : Int) : Int := bits * 30103 / 100000 + 2

/-- The shortest decimal for `m * 2 ^ q`, where `m` has at most 53 binary digits: one of the
twenty grids tried is fine enough. -/
def shortest (tie : Tie) (m : Nat) (q : Int) (narrow : Bool) : Decimal :=
  let r := Rounding.ofBinary m q narrow
  let top := leadingExponent (q + m.log2)
  let found := (List.range 20).findSome? fun (k : Nat) =>
    (r.onGrid? tie (top - k)).map fun d => (⟨d, top - k⟩ : Decimal)
  found.getD ⟨m, 0⟩

end PlanarLP.Decimal
