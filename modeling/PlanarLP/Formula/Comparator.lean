import PlanarLP.Relation

/-! The comparison operators of the formula language. A strict one is read as the closed
relation that it implies. -/

namespace PlanarLP.Formula

inductive Comparator where
  | le
  | ge
  | lt
  | gt
  | eq
deriving DecidableEq, Repr

namespace Comparator

def isStrict : Comparator → Bool
  | lt | gt => true
  | _ => false

/-- The closed relation. -/
def relation : Comparator → Relation
  | le | lt => .le
  | ge | gt => .ge
  | eq => .eq

end Comparator

end PlanarLP.Formula
