import PlanarLP.Constraint

/-! The directions in which a region opens to infinity: the cone of vectors that no outward
normal looks along, given by unit vectors that generate it. -/

namespace PlanarLP

variable {α : Type} [Scalar α]

def axisDirections : List (Vec α) := [⟨1, 0⟩, ⟨0, 1⟩, ⟨-1, 0⟩, ⟨0, -1⟩]

/-- Whether moving along `d` goes outward across no boundary. -/
def recedes (tol : Tolerance α) (normals : List (Vec α)) (d : Vec α) : Bool :=
  normals.all fun n => tol.holds (n.dot d) .le 0 1

/-- An extreme ray of the cone runs along some boundary, one way or the other; a half-plane
also needs the direction straight away from its boundary. -/
def rayCandidates (normals : List (Vec α)) : List (Vec α) :=
  normals.flatMap fun n => [n.turnLeft, n.turnRight, -n]

/-- The members of a list without those that come after a member at the same point. -/
def distinctPoints (tol : Tolerance α) (ps : List (Vec α)) : List (Vec α) :=
  ps.foldl (fun kept p => if kept.any (tol.samePoint · p) then kept else kept ++ [p]) []

/-- Generators of the recession cone, sorted by angle. There are none when the outward
normals leave no way out, so that the region, if it has points, is bounded. -/
def recessionRays (tol : Tolerance α) (cs : List (Constraint α)) : List (Vec α) :=
  let normals := cs.flatMap Constraint.outwardNormals
  if normals.isEmpty then axisDirections
  else
    let rays := distinctPoints tol ((rayCandidates normals).filter (recedes tol normals))
    rays.mergeSort fun d e => (Scalar.order d.angle e.angle).isLE

end PlanarLP
