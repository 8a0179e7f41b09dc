import PlanarLP.ConstraintSet
import PlanarLP.Region.Conflict
import PlanarLP.Region.Recession

/-! The feasible region of a constraint set, and the solver that computes it. -/

namespace PlanarLP

inductive Region (α : Type) where
  /-- No point satisfies every constraint. -/
  | infeasible (conflicts : List Conflict)
  /-- A half-plane, strip, line or the whole plane, with sample points of it. -/
  | cornerless (witnesses : List (Vertex α)) (openDirections : List (Vec α))
  /-- A region with corners, in counter-clockwise order about their centroid. -/
  | cornered (vertices : List (Vertex α)) (openDirections : List (Vec α))
deriving DecidableEq

namespace Region

inductive Status where
  | bounded
  | unbounded
  | infeasible
deriving DecidableEq, Repr

variable {α : Type}

/-- A region without corners always extends to infinity. -/
def status : Region α → Status
  | infeasible _ => .infeasible
  | cornerless _ _ => .unbounded
  | cornered _ [] => .bounded
  | cornered _ (_ :: _) => .unbounded

def isFeasible (r : Region α) : Bool := r.status != .infeasible

def isBounded (r : Region α) : Bool := r.status == .bounded

def vertices : Region α → List (Vertex α)
  | cornered vs _ => vs
  | _ => []

def witnesses : Region α → List (Vertex α)
  | cornerless ws _ => ws
  | _ => []

def openDirections : Region α → List (Vec α)
  | infeasible _ => []
  | cornerless _ ds => ds
  | cornered _ ds => ds

def conflicts : Region α → List Conflict
  | infeasible cs => cs
  | _ => []

/-- The points at which an objective is evaluated. -/
def candidates : Region α → List (Vertex α)
  | infeasible _ => []
  | cornerless ws _ => ws
  | cornered vs _ => vs

def degenerateVertices (r : Region α) : List (Vertex α) := r.vertices.filter (·.degenerate)

end Region

variable {α : Type} [Scalar α]

/-- The allowed probes, each point once. -/
def samplePoints (tol : Tolerance α) (cs : List (Constraint α)) : List (Vertex α) :=
  ((probes cs).filter (allows tol cs)).foldl
    (fun ws p =>
      if ws.any (fun w => tol.samePoint w.position p) then ws else ws ++ [vertexAt tol cs p])
    []

/-- The region that a list of constraints leaves. -/
def regionOf (tol : Tolerance α) (cs : List (Constraint α)) : Region α :=
  match corners tol cs with
  | v :: vs => .cornered (v :: vs) (recessionRays tol cs)
  | [] =>
    match samplePoints tol cs with
    | w :: ws => .cornerless (w :: ws) (recessionRays tol cs)
    | [] => .infeasible (smallestConflicts tol cs)

/-- More constraints were given than the solver takes. -/
structure TooManyConstraints where
  count : Nat
  limit : Nat
deriving DecidableEq, Repr

def TooManyConstraints.message (e : TooManyConstraints) : String :=
  s!"Too many constraints: {e.count} given, at most {e.limit} allowed"

structure Solver (α : Type) where
  tolerance : Tolerance α
  /-- The most constraints that may be given; bounds added by default are not counted. -/
  maxConstraints : Nat

namespace Solver

def standard : Solver α := ⟨.standard, 50⟩

def checkSize (solver : Solver α) (count : Nat) : Except TooManyConstraints Unit :=
  if solver.maxConstraints < count then .error ⟨count, solver.maxConstraints⟩ else .ok ()

def solve (solver : Solver α) (set : ConstraintSet α) : Except TooManyConstraints (Region α) := do
  solver.checkSize set.explicit.length
  return regionOf solver.tolerance set.constraints

end Solver

end PlanarLP
