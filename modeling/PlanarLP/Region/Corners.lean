import PlanarLP.Region.Pairs
import PlanarLP.Vertex

/-! The corners of the region that a list of constraints leaves. Boundary lines are crossed
two by two, crossings that break a constraint are dropped, crossings at the same point become
one vertex, and the vertices are put in counter-clockwise order. -/

namespace PlanarLP

variable {α : Type} [Scalar α]

/-- Where the boundary lines cross, for every two that are not parallel. -/
def crossings (tol : Tolerance α) (cs : List (Constraint α)) : List (Vec α) :=
  (pairs cs).filterMap fun (k, l) => k.crossing l tol

/-- Add a vertex, or merge its tight constraints into the first vertex at the same point. -/
def absorb (tol : Tolerance α) (new : Vertex α) : List (Vertex α) → List (Vertex α)
  | [] => [new]
  | v :: vs =>
    if tol.samePoint v.position new.position then v.merge new.tight :: vs
    else v :: absorb tol new vs

def centroid (vs : List (Vertex α)) : Vec α :=
  (vs.foldl (fun sum v => sum + v.position) Vec.origin).divide vs.length

/-- Angle about `center` first, then distance from it. -/
def orderAround (center : Vec α) (v w : Vertex α) : Ordering :=
  let p := v.position - center
  let q := w.position - center
  (Scalar.order p.angle q.angle).then (Scalar.order p.normSq q.normSq)

/-- Vertices by angle about their centroid, equal ones in the order they came in. -/
def counterClockwise (vs : List (Vertex α)) : List (Vertex α) :=
  vs.mergeSort fun v w => (orderAround (centroid vs) v w).isLE

def corners (tol : Tolerance α) (cs : List (Constraint α)) : List (Vertex α) :=
  let admitted := (crossings tol cs).filter (allows tol cs)
  counterClockwise (admitted.foldl (fun vs p => absorb tol (vertexAt tol cs p) vs) [])

end PlanarLP
