/-! The relation of a closed linear constraint between its two sides. -/

namespace PlanarLP

inductive Relation where
  | le
  | ge
  | eq
deriving DecidableEq, Repr

namespace Relation

def symbol : Relation → String
  | le => "<="
  | ge => ">="
  | eq => "="

/-- The relation after both sides are multiplied by a negative number. -/
def flip : Relation → Relation
  | le => ge
  | ge => le
  | eq => eq

theorem flip_flip (r : Relation) : r.flip.flip = r := by cases r <;> rfl

end Relation

end PlanarLP
