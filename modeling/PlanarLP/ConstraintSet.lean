import PlanarLP.Constraint

/-! The constraints of one problem. The given ones keep their order and come first; the
bounds `x >= 0` and `y >= 0` that are added by default follow them. -/

namespace PlanarLP

structure ConstraintSet (α : Type) where
  explicit : List (Constraint α)
  implicit : List (Constraint α)
deriving DecidableEq

namespace ConstraintSet

variable {α : Type}

/-- All constraints, in the order of their indices. -/
def constraints (set : ConstraintSet α) : List (Constraint α) := set.explicit ++ set.implicit

def size (set : ConstraintSet α) : Nat := set.constraints.length

def get? (set : ConstraintSet α) (i : Nat) : Option (Constraint α) := set.constraints[i]?

def isEmpty (set : ConstraintSet α) : Bool := set.constraints.isEmpty

/-- Whether the constraint with index `i` was added by default. -/
def isImplicit (set : ConstraintSet α) (i : Nat) : Bool :=
  set.explicit.length ≤ i && i < set.size

variable [Scalar α]

/-- The bounds of the first quadrant that `given` does not already state. -/
def missingBounds (given : List (Constraint α)) : List (Constraint α) :=
  [.xNonnegative, .yNonnegative].filter fun bound =>
    !given.any fun k => k.isEquivalent bound Tolerance.standard

def of (given : List (Constraint α)) (assumeNonnegative : Bool) : ConstraintSet α :=
  ⟨given, if assumeNonnegative then missingBounds given else []⟩

end ConstraintSet

end PlanarLP
