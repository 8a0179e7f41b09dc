/-! The numbers a problem in the plane is solved over. Tolerances, regions and the
formula language are written once over a `Scalar`: programs run them at `Float`, and
statements about exact arithmetic read them at the real numbers. The class lists
operations and no laws, since rounded arithmetic keeps hardly any. -/

namespace PlanarLP

class Scalar (α : Type) extends Add α, Sub α, Mul α, Div α, Neg α, Zero α, One α,
    NatCast α, OfScientific α, LE α, LT α, BEq α where
  decLe : DecidableLE α
  decLt : DecidableLT α
  abs : α → α
  sqrt : α → α
  /-- The larger of two; next to a value that is no number, the other one. -/
  max : α → α → α
  /-- The smaller of two; next to a value that is no number, the other one. -/
  min : α → α → α
  /-- The angle from the positive x axis to the vector `(x, y)`, the ordinate first. -/
  atan2 : α → α → α
  isFinite : α → Bool
  /-- The value above every finite one, where there is such a value. -/
  infinity : Option α
  /-- A total order for sorting, also between values that `<` leaves unrelated. -/
  order : α → α → Ordering
  /-- Decimal notation for labels and messages. -/
  text : α → String

namespace Scalar

instance {α : Type} [Scalar α] : DecidableLE α := decLe

instance {α : Type} [Scalar α] : DecidableLT α := decLt

attribute [instance (low)] toAdd toSub toMul toDiv toNeg toZero toOne toNatCast toOfScientific
  toLE toLT toBEq

end Scalar

end PlanarLP
